-- SUMMARY: Stored receipts, the logs that are read from them, and the filter of these logs.
import TsEthereum.Tx.Bytes

/-!
# Receipts

`ReceiptsManager`: the receipts of a block under its hash, and the logs of a range of
blocks. What `JSON.stringify` needs for the logs of a block is a parameter.
-/

open List Except

namespace ReceiptsManager

/-! ## Receipts -/

structure Log where
  address : Bytes
  topics : List Bytes
  data : Bytes
  deriving DecidableEq, Repr

inductive PostStateOrStatus where
  | stateRoot (root : Bytes)
  | status (status : Nat)
  deriving DecidableEq, Repr

structure TxReceipt where
  postStateOrStatus : PostStateOrStatus
  cumulativeBlockGasUsed : Nat
  logs : List Log
  deriving DecidableEq, Repr

def Log.item (log : Log) : Rlp.Item :=
  .list [.bytes log.address, .list (log.topics.map .bytes), .bytes log.data]

def encodeLogs (logs : List Log) : Bytes := Rlp.encode (.list (logs.map Log.item))

/-- `stateRoot ?? intToBytes(status)`. -/
def PostStateOrStatus.bytes : PostStateOrStatus → Except String Bytes
  | stateRoot root => .ok root
  | status value => Tx.intToBytes value

def TxReceipt.item (r : TxReceipt) : Except String Rlp.Item := do
  let postStateOrStatus ← r.postStateOrStatus.bytes
  return .list [.bytes postStateOrStatus, .bytes (Tx.bigIntToBytes r.cumulativeBlockGasUsed),
    .bytes (encodeLogs r.logs)]

/-- `this.rlp(RlpConvert.Encode, RlpType.Receipts, receipts)`. -/
def encodeReceipts (receipts : List TxReceipt) : Except String Bytes := do
  let items ← receipts.mapM TxReceipt.item
  return Rlp.encode (.list items)

def bytesToInt (bytes : Bytes) : Except String Nat :=
  if Tx.bytesToBigInt bytes < 2 ^ 53 then .ok (Tx.bytesToBigInt bytes) else .error "Number exceeds 53 bits"

/-- A decoded value of another shape than the encoder writes. -/
def malformed {α : Type} : Except String α := .error "malformed receipts"

def decode (input : Bytes) : Except String Rlp.Item := (Rlp.decode input).mapError Rlp.RlpError.message

def toTopic : Rlp.Item → Except String Bytes
  | .bytes topic => .ok topic
  | .list _ => malformed

def toLog : Rlp.Item → Except String Log
  | .list [.bytes address, .list topics, .bytes data] => do return ⟨address, ← topics.mapM toTopic, data⟩
  | _ => malformed

def decodeLogs (value : Bytes) : Except String (List Log) := do
  match ← decode value with
  | .list logs => logs.mapM toLog
  | .bytes _ => malformed

def toReceipt : Rlp.Item → Except String TxReceipt
  | .list [.bytes postStateOrStatus, .bytes gasUsed, .bytes logs] => do
    let logs ← decodeLogs logs
    if postStateOrStatus.length = 32 then return ⟨.stateRoot postStateOrStatus, Tx.bytesToBigInt gasUsed, logs⟩
    return ⟨.status (← bytesToInt postStateOrStatus), Tx.bytesToBigInt gasUsed, logs⟩
  | _ => malformed

/-- `this.rlp(RlpConvert.Decode, RlpType.Receipts, encoded)`. -/
def decodeReceipts (value : Bytes) : Except String (List TxReceipt) := do
  match ← decode value with
  | .list receipts => receipts.mapM toReceipt
  | .bytes _ => malformed

/-! ## The store -/

structure Block (T : Type) where
  number : Nat
  hash : Bytes
  transactions : List T
  deriving DecidableEq

/-- The receipts of the meta database, by block hash. -/
abbrev MetaDB := Bytes → Option Bytes

variable {T : Type}

def saveReceipts (db : MetaDB) (block : Block T) (receipts : List TxReceipt) : Except String MetaDB := do
  let encoded ← encodeReceipts receipts
  return fun hash => if hash = block.hash then some encoded else db hash

def deleteReceipts (db : MetaDB) (block : Block T) : MetaDB :=
  fun hash => if hash = block.hash then none else db hash

/-- The receipts without their blooms and transaction types. -/
def getReceipts (db : MetaDB) (blockHash : Bytes) : Except String (List TxReceipt) :=
  match db blockHash with
  | none => .ok []
  | some encoded => decodeReceipts encoded

/-! ## The filter -/

/-- A position of the filter: `null`, one topic or an array of topics. -/
inductive Topic where
  | null
  | topic (topic : Bytes)
  | array (topics : List Bytes)
  deriving DecidableEq, Repr

def equalsBytes (a : Bytes) : Option Bytes → Except String Bool
  | none => .error "Cannot read properties of undefined (reading 'length')"
  | some b => .ok (a = b)

/-- `topic.find((t) => equalsBytes(t, l.log[1][i]))`, and whether it found one. -/
def findTopic : List Bytes → Option Bytes → Except String Bool
  | [], _ => .ok false
  | t :: ts, b => do if ← equalsBytes t b then return true else findTopic ts b

/-- What a turn of the loop over the topics makes of the result before its last line. -/
def checkTopic (topic : Topic) (t : Option Bytes) (result : Bool) : Except String Bool :=
  match topic with
  | .array ts => do if !(← findTopic ts t) then return false else return result
  | .null => .ok result
  | .topic value => do if !(← equalsBytes value t) then return false else return result

/-- The loop over the topics; the last line of a turn sets the result to true. -/
def topicLoop (log : Log) : Nat → List Topic → Bool → Except String Bool
  | _, [], result => .ok result
  | i, topic :: topics, result => do
    let _result ← checkTopic topic log.topics[i]? result
    topicLoop log (i + 1) topics true

structure LogEntry (T : Type) where
  log : Log
  block : Block T
  tx : Option T
  txIndex : Nat
  logIndex : Nat
  deriving DecidableEq

def filterTopics (topics : List Topic) : List (LogEntry T) → Except String (List (LogEntry T))
  | [] => .ok []
  | l :: logs => do
    let result ← topicLoop l.log 0 topics true
    let rest ← filterTopics topics logs
    return if result then l :: rest else rest

/-- The filter by topics, where there are some. -/
def filterByTopics (topics : List Topic) (logs : List (LogEntry T)) : Except String (List (LogEntry T)) :=
  if topics.length > 0 then filterTopics topics logs else .ok logs

def filterAddresses (addresses : Option (List Bytes)) (logs : List (LogEntry T)) : List (LogEntry T) :=
  match addresses with
  | some (a :: as) => logs.filter fun l => (a :: as).any fun a => a = l.log.address
  | _ => logs

/-! ## The logs of a range -/

def GET_LOGS_LIMIT : Nat := 10000
def GET_LOGS_LIMIT_MEGABYTES : Nat := 150

structure Env (T : Type) where
  /-- `this.chain.getBlock`. -/
  getBlock : Nat → Except String (Block T)
  /-- `utf8ToBytes(JSON.stringify(logs)).byteLength`. -/
  jsonSize : List (LogEntry T) → Nat

/-- The logs of receipts from an index on, the first log of which has this index in the block. -/
def entriesFrom (block : Block T) : Nat → Nat → List TxReceipt → List (LogEntry T)
  | _, _, [] => []
  | receiptIndex, logIndex, receipt :: receipts =>
    (receipt.logs.zipIdx logIndex).map (fun (log, logIndex) =>
      ⟨log, block, block.transactions[receiptIndex]?, receiptIndex, logIndex⟩) ++
    entriesFrom block (receiptIndex + 1) (logIndex + receipt.logs.length) receipts

variable (env : Env T) (db : MetaDB) (addresses : Option (List Bytes)) (topics : List Topic)

def limitReached (returnedLogs returnedLogsSize : Nat) : Bool :=
  returnedLogs ≥ GET_LOGS_LIMIT || returnedLogsSize ≥ GET_LOGS_LIMIT_MEGABYTES * 1048576

/-- The loop of `getLogs` over the numbers of `count` blocks. -/
def getLogsFrom : Nat → Nat → List (LogEntry T) → Nat → Except String (List (LogEntry T))
  | 0, _, returnedLogs, _ => .ok returnedLogs
  | count + 1, i, returnedLogs, returnedLogsSize => do
    let block ← env.getBlock i
    let receipts ← getReceipts db block.hash
    if receipts.length = 0 then getLogsFrom count (i + 1) returnedLogs returnedLogsSize
    else
      let logs := filterAddresses addresses (entriesFrom block 0 0 receipts)
      let logs ← filterByTopics topics logs
      let returnedLogs := returnedLogs ++ logs
      let returnedLogsSize := returnedLogsSize + env.jsonSize logs
      if limitReached returnedLogs.length returnedLogsSize then return returnedLogs
      getLogsFrom count (i + 1) returnedLogs returnedLogsSize

def getLogs (start stop : Block T) : Except String (List (LogEntry T)) :=
  getLogsFrom env db addresses topics (stop.number + 1 - start.number) start.number [] 0

/-! ## Stored receipts are read back -/

/-- A state root has 32 bytes, by which it is told from a status. -/
def TxReceipt.Valid (r : TxReceipt) : Prop :=
  match r.postStateOrStatus with
  | .stateRoot root => root.length = 32
  | .status _ => True

theorem decode_encode {x : Rlp.Item} (h : (Rlp.encode x).length < 2 ^ 53) : decode (Rlp.encode x) = .ok x :=
  mapError_eq_ok.mpr (Rlp.decode_encode h)

theorem toLog_item (log : Log) : toLog log.item = .ok log := by
  have htopics : (log.topics.map Rlp.Item.bytes).mapM toTopic = .ok log.topics :=
    @Except.mapM_map _ _ _ Rlp.Item.bytes toTopic (fun _ => rfl) log.topics
  unfold Log.item toLog
  dsimp only
  rw [htopics]
  rfl

theorem decodeLogs_encodeLogs {logs : List Log} (h : (encodeLogs logs).length < 2 ^ 53) :
    decodeLogs (encodeLogs logs) = .ok logs := by
  unfold decodeLogs
  unfold encodeLogs at h ⊢
  rw [decode_encode h]
  exact mapM_map toLog_item logs

theorem bytesToInt_intToBytes {n : Nat} {bytes : Bytes} (h : Tx.intToBytes n = .ok bytes) :
    bytesToInt bytes = .ok n ∧ bytes.length ≠ 32 := by
  unfold Tx.intToBytes at h
  split at h
  · cases h
  · next hsafe =>
    obtain rfl := ok.inj h
    have hn : n < 2 ^ 53 := by omega
    have hvalue : Tx.bytesToBigInt (Rlp.numberToBytes (n : Int).toNat) = n :=
      Tx.bytesToBigInt_bigIntToBytes n
    have hlen := @Rlp.length_numberBytes 6 n (by omega) (n + 1) []
    refine ⟨?_, fun h32 => ?_⟩
    · unfold bytesToInt
      rw [hvalue, if_pos hn]
    · unfold Rlp.numberToBytes at h32
      rw [Int.toNat_natCast] at h32
      rw [h32] at hlen
      exact absurd hlen (by decide)

theorem toReceipt_of_item {r : TxReceipt} {item : Rlp.Item} (h : r.item = .ok item) (hvalid : r.Valid)
    (hsmall : (encodeLogs r.logs).length < 2 ^ 53) : toReceipt item = .ok r := by
  obtain ⟨post, gas, logs⟩ := r
  have hgas : Tx.bytesToBigInt (Tx.bigIntToBytes gas) = gas := Tx.bytesToBigInt_bigIntToBytes gas
  unfold TxReceipt.item at h
  obtain ⟨bytes, hbytes, h⟩ := bind_eq_ok.mp h
  obtain rfl := ok.inj h
  cases post with
  | stateRoot root =>
    obtain rfl := ok.inj hbytes
    unfold toReceipt
    dsimp only
    rw [decodeLogs_encodeLogs hsmall, hgas]
    exact if_pos hvalid
  | status n =>
    obtain ⟨hint, hlen⟩ := bytesToInt_intToBytes hbytes
    unfold toReceipt
    dsimp only
    rw [decodeLogs_encodeLogs hsmall, hgas, hint]
    exact if_neg hlen

theorem length_encode_le_of_mem {x : Rlp.Item} {l : List Rlp.Item} (h : x ∈ l) :
    (Rlp.encode x).length ≤ (Rlp.encode (.list l)).length := by
  have hall : (Rlp.encode x).length ≤ (Rlp.encodeAll l).length := by
    induction l with
    | nil => cases h
    | cons y l ih =>
      unfold Rlp.encodeAll
      rw [length_append]
      rcases mem_cons.mp h with rfl | h
      · exact Nat.le_add_right _ _
      · exact Nat.le_trans (ih h) (Nat.le_add_left _ _)
  conv => rhs; unfold Rlp.encode
  rw [length_append]
  exact Nat.le_trans hall (Nat.le_add_left _ _)

/-- The logs of a receipt are shorter than what they are part of. -/
theorem length_encodeLogs_le {r : TxReceipt} {item : Rlp.Item} (h : r.item = .ok item) :
    (encodeLogs r.logs).length ≤ (Rlp.encode item).length := by
  unfold TxReceipt.item at h
  obtain ⟨post, -, h⟩ := bind_eq_ok.mp h
  obtain rfl := ok.inj h
  refine Nat.le_trans (Rlp.length_le_encodeBytes _) ?_
  exact @length_encode_le_of_mem (.bytes (encodeLogs r.logs)) _
    (mem_cons_of_mem _ (mem_cons_of_mem _ (mem_singleton_self _)))

variable {receipts : List TxReceipt}

theorem decodeReceipts_encodeReceipts {encoded : Bytes} (h : encodeReceipts receipts = .ok encoded)
    (hvalid : ∀ r ∈ receipts, r.Valid) (hsmall : encoded.length < 2 ^ 53) :
    decodeReceipts encoded = .ok receipts := by
  obtain ⟨items, hitems, h⟩ := bind_eq_ok.mp h
  obtain rfl := ok.inj h
  unfold decodeReceipts
  rw [decode_encode hsmall]
  refine mapM_inverse (fun r hr item hitem => ?_) hitems
  obtain ⟨item', hmem, hitem'⟩ := mem_of_mapM hitems hr
  obtain rfl := ok.inj (hitem.symm.trans hitem')
  apply toReceipt_of_item hitem (hvalid r hr)
  exact Nat.lt_of_le_of_lt (Nat.le_trans (length_encodeLogs_le hitem) (length_encode_le_of_mem hmem)) hsmall

/-- The receipts of a block as the store has them: none, or what was saved for it. -/
def Stored (db : MetaDB) (block : Block T) (receipts : List TxReceipt) : Prop :=
  (receipts = [] ∧ db block.hash = none) ∨ ∃ encoded, encodeReceipts receipts = .ok encoded ∧
    encoded.length < 2 ^ 53 ∧ (∀ r ∈ receipts, r.Valid) ∧ db block.hash = some encoded

theorem stored_saveReceipts {db db' : MetaDB} {block : Block T}
    (h : saveReceipts db block receipts = .ok db') (hvalid : ∀ r ∈ receipts, r.Valid)
    (hsmall : ∀ encoded, encodeReceipts receipts = .ok encoded → encoded.length < 2 ^ 53) :
    Stored db' block receipts := by
  obtain ⟨encoded, hencoded, h⟩ := bind_eq_ok.mp h
  obtain rfl := ok.inj h
  exact .inr ⟨encoded, hencoded, hsmall encoded hencoded, hvalid, if_pos rfl⟩

theorem getReceipts_of_stored {db : MetaDB} {block : Block T} (h : Stored db block receipts) :
    getReceipts db block.hash = .ok receipts := by
  unfold getReceipts
  rcases h with ⟨rfl, hnone⟩ | ⟨encoded, hencoded, hsmall, hvalid, hsome⟩
  · rw [hnone]
  · rw [hsome]
    exact decodeReceipts_encodeReceipts hencoded hvalid hsmall

/-! ## The logs that are asked for -/

/-- The logs of a block in transaction and log order, numbered through the block. -/
def blockLogs (block : Block T) (receipts : List TxReceipt) : List (LogEntry T) :=
  (receipts.zipIdx.flatMap fun (r, txIndex) => r.logs.map fun log => (log, txIndex)).zipIdx.map
    fun ((log, txIndex), logIndex) => ⟨log, block, block.transactions[txIndex]?, txIndex, logIndex⟩

/-- The address is in the list, where one is given. -/
def listed (addresses : Option (List Bytes)) (log : Log) : Bool :=
  match addresses with
  | some (a :: as) => (a :: as).contains log.address
  | _ => true

/-- A topic at its position of the filter. -/
def Topic.accepts (t : Option Bytes) : Topic → Bool
  | null => true
  | topic value => t = some value
  | array values => values.any fun value => t = some value

/-- The topics of a log match position by position. -/
def accepted (topics : List Topic) (log : Log) : Bool :=
  topics.zipIdx.all fun (topic, i) => topic.accepts log.topics[i]?

/-- The blocks up to the one whose logs reach a limit. -/
def lookedAt (found : Block T × List TxReceipt → List (LogEntry T)) :
    Nat → Nat → List (Block T × List TxReceipt) → List (Block T × List TxReceipt)
  | _, _, [] => []
  | returnedLogs, returnedLogsSize, b :: blocks =>
    if b.2 = [] then lookedAt found returnedLogs returnedLogsSize blocks
    else if limitReached (returnedLogs + (found b).length) (returnedLogsSize + env.jsonSize (found b)) then [b]
    else b :: lookedAt found (returnedLogs + (found b).length) (returnedLogsSize + env.jsonSize (found b)) blocks

/-- The logs with a listed address. -/
def addressed (b : Block T × List TxReceipt) : List (LogEntry T) :=
  (blockLogs b.1 b.2).filter fun l => listed addresses l.log

/-- The logs that are asked for: listed address, matching topics. -/
def wanted (b : Block T × List TxReceipt) : List (LogEntry T) :=
  (blockLogs b.1 b.2).filter fun l => listed addresses l.log && accepted topics l.log

/-! ## What is found -/

theorem entriesFrom_eq (block : Block T) (txIndex logIndex : Nat) (receipts : List TxReceipt) :
    entriesFrom block txIndex logIndex receipts =
      (((receipts.zipIdx txIndex).flatMap fun (r, t) => r.logs.map fun log => (log, t)).zipIdx logIndex).map
        fun ((log, t), j) => ⟨log, block, block.transactions[t]?, t, j⟩ := by
  induction receipts generalizing txIndex logIndex with
  | nil => rfl
  | cons r receipts ih =>
    unfold entriesFrom
    rw [ih, zipIdx_cons, flatMap_cons, zipIdx_append, map_append, length_map,
      zipIdx_map, map_map]
    rfl

theorem filterAddresses_eq (logs : List (LogEntry T)) :
    filterAddresses addresses logs = logs.filter fun l => listed addresses l.log := by
  unfold filterAddresses listed
  split
  · next a as =>
    apply filter_congr
    intro l _
    rw [Bool.eq_iff_iff, any_eq_true, contains_iff_mem]
    simp only [decide_eq_true_eq, exists_eq_right]
  · exact (List.filter_eq_self.mpr fun _ _ => rfl).symm

section
variable {topics}

theorem findTopic_some (ts : List Bytes) (b : Bytes) :
    findTopic ts (some b) = .ok (ts.any fun t => decide (some b = some t)) := by
  induction ts with
  | nil => rfl
  | cons t ts ih =>
    unfold findTopic equalsBytes
    rw [ih, any_cons]
    by_cases htb : t = b
    · simp [htb, bind, Except.bind, pure, Except.pure]
    · simp [htb, Ne.symm htb, bind, Except.bind]

theorem checkTopic_of_accepts {topic : Topic} {t : Option Bytes} (h : topic.accepts t = true) :
    checkTopic topic t true = .ok true := by
  cases topic with
  | null => rfl
  | topic value =>
    obtain rfl := of_decide_eq_true h
    have hequal : equalsBytes value (some value) = .ok true := congrArg Except.ok (decide_eq_true rfl)
    unfold checkTopic
    dsimp only
    rw [hequal]
    rfl
  | array values =>
    cases t with
    | none =>
      obtain ⟨value, -, hvalue⟩ := List.any_eq_true.mp h
      cases of_decide_eq_true hvalue
    | some b =>
      have hfound : findTopic values (some b) = .ok true := (findTopic_some values b).trans (congrArg _ h)
      unfold checkTopic
      dsimp only
      rw [hfound]
      rfl

/-- The loop forgets what it found: where it ends it accepts. -/
theorem topicLoop_ok {log : Log} {i : Nat} {topics : List Topic} {result : Bool}
    (h : topicLoop log i topics true = .ok result) : result = true := by
  induction topics generalizing i with
  | nil => exact (ok.inj h).symm
  | cons topic topics ih =>
    unfold topicLoop at h
    obtain ⟨_, -, h⟩ := bind_eq_ok.mp h
    exact ih h

/-- A log that matches has a topic at each position that asks for one. -/
theorem topicLoop_of_accepted {log : Log} {i : Nat} {topics : List Topic}
    (h : ((topics.zipIdx i).all fun (topic, i) => topic.accepts log.topics[i]?) = true) :
    topicLoop log i topics true = .ok true := by
  induction topics generalizing i with
  | nil => rfl
  | cons topic topics ih =>
    rw [zipIdx_cons, all_cons, Bool.and_eq_true] at h
    unfold topicLoop
    rw [checkTopic_of_accepts h.1]
    exact ih h.2

variable {logs : List (LogEntry T)}

theorem filterTopics_ok {logs' : List (LogEntry T)} (h : filterTopics topics logs = .ok logs') :
    logs' = logs := by
  induction logs generalizing logs' with
  | nil => exact (ok.inj h).symm
  | cons l logs ih =>
    unfold filterTopics at h
    obtain ⟨result, hresult, h⟩ := bind_eq_ok.mp h
    obtain ⟨rest, hrest, h⟩ := bind_eq_ok.mp h
    obtain rfl := topicLoop_ok hresult
    rw [← ih hrest]
    exact (ok.inj h).symm

theorem filterTopics_of_accepted (h : ∀ l ∈ logs, accepted topics l.log = true) :
    filterTopics topics logs = .ok logs := by
  induction logs with
  | nil => rfl
  | cons l logs ih =>
    unfold filterTopics
    rw [topicLoop_of_accepted (h l mem_cons_self), ih fun l hl => h l (mem_cons_of_mem _ hl)]
    rfl

theorem filterByTopics_ok {logs' : List (LogEntry T)} (h : filterByTopics topics logs = .ok logs') :
    logs' = logs := by
  unfold filterByTopics at h
  split at h
  · exact filterTopics_ok h
  · exact (ok.inj h).symm

theorem filterByTopics_of_accepted (h : ∀ l ∈ logs, accepted topics l.log = true) :
    filterByTopics topics logs = .ok logs := by
  unfold filterByTopics
  split
  · exact filterTopics_of_accepted h
  · rfl

end

/-! ## The loop over the blocks -/

/-- The chain has the blocks from a number on. -/
def OnChain : Nat → List (Block T × List TxReceipt) → Prop
  | _, [] => True
  | i, b :: blocks => env.getBlock i = .ok b.1 ∧ OnChain (i + 1) blocks

/-- The blocks of the range as the chain has them, and their receipts as the store has them. -/
structure Range (start stop : Block T) (blocks : List (Block T × List TxReceipt)) : Prop where
  length_eq : blocks.length = stop.number + 1 - start.number
  chain : OnChain env start.number blocks
  stored : ∀ b ∈ blocks, Stored db b.1 b.2

section
variable {env db addresses topics}

theorem getLogsFrom_cons {i : Nat} {b : Block T × List TxReceipt} {count : Nat} (hchain : env.getBlock i = .ok b.1)
    (hstored : Stored db b.1 b.2) (returnedLogs : List (LogEntry T)) (returnedLogsSize : Nat) :
    getLogsFrom env db addresses topics (count + 1) i returnedLogs returnedLogsSize =
      if b.2 = [] then getLogsFrom env db addresses topics count (i + 1) returnedLogs returnedLogsSize
      else
        filterByTopics topics (addressed addresses b) >>= fun logs =>
          if limitReached (returnedLogs ++ logs).length (returnedLogsSize + env.jsonSize logs) then
            .ok (returnedLogs ++ logs)
          else getLogsFrom env db addresses topics count (i + 1) (returnedLogs ++ logs)
            (returnedLogsSize + env.jsonSize logs) := by
  have hlogs : filterAddresses addresses (entriesFrom b.1 0 0 b.2) = addressed addresses b := by
    rw [filterAddresses_eq, entriesFrom_eq]
    rfl
  conv => lhs; unfold getLogsFrom
  rw [hchain]
  change (getReceipts db b.1.hash >>= _) = _
  rw [getReceipts_of_stored hstored]
  change (if b.2.length = 0 then _ else _) = _
  rw [hlogs]
  exact if_congr length_eq_zero_iff rfl rfl

/-- Where the loop returns, it returns all logs with a listed address of the blocks that it
looked at. -/
theorem getLogsFrom_ok {blocks : List (Block T × List TxReceipt)} {i : Nat}
    (hchain : OnChain env i blocks)
    (hstored : ∀ b ∈ blocks, Stored db b.1 b.2) {returnedLogs : List (LogEntry T)} {returnedLogsSize : Nat}
    {logs : List (LogEntry T)}
    (h : getLogsFrom env db addresses topics blocks.length i returnedLogs returnedLogsSize = .ok logs) :
    logs = returnedLogs ++
      (lookedAt env (addressed addresses) returnedLogs.length returnedLogsSize blocks).flatMap (addressed addresses) := by
  induction blocks generalizing i returnedLogs returnedLogsSize with
  | nil => exact (ok.inj h).symm.trans (append_nil _).symm
  | cons b blocks ih =>
    have ih {returned size} := @ih (i + 1) hchain.2 (fun b hb => hstored b (mem_cons_of_mem _ hb)) returned size
    rw [length_cons, getLogsFrom_cons hchain.1 (hstored b mem_cons_self)] at h
    unfold lookedAt
    split at h
    · next hempty =>
      rw [if_pos hempty]
      exact ih h
    · next hne =>
      obtain ⟨found, hfound, h⟩ := bind_eq_ok.mp h
      obtain rfl := filterByTopics_ok hfound
      rw [if_neg hne, ← length_append]
      split at h
      · next hlimit =>
        rw [if_pos hlimit, flatMap_singleton]
        exact (ok.inj h).symm
      · next hlimit =>
        rw [if_neg hlimit, flatMap_cons, ← append_assoc]
        exact ih h

/-- It returns where all these logs match. -/
theorem getLogsFrom_of_accepted {blocks : List (Block T × List TxReceipt)} {i : Nat}
    (hchain : OnChain env i blocks)
    (hstored : ∀ b ∈ blocks, Stored db b.1 b.2) {returnedLogs : List (LogEntry T)} {returnedLogsSize : Nat}
    (h : ∀ b ∈ lookedAt env (addressed addresses) returnedLogs.length returnedLogsSize blocks,
      ∀ l ∈ addressed addresses b, accepted topics l.log = true) :
    ∃ logs, getLogsFrom env db addresses topics blocks.length i returnedLogs returnedLogsSize = .ok logs := by
  induction blocks generalizing i returnedLogs returnedLogsSize with
  | nil => exact ⟨_, rfl⟩
  | cons b blocks ih =>
    have ih {returned size} := @ih (i + 1) hchain.2 (fun b hb => hstored b (mem_cons_of_mem _ hb)) returned size
    rw [length_cons, getLogsFrom_cons hchain.1 (hstored b mem_cons_self)]
    unfold lookedAt at h
    by_cases hempty : b.2 = []
    · rw [if_pos hempty] at h ⊢
      exact ih h
    · rw [if_neg hempty] at h ⊢
      have hall : ∀ l ∈ addressed addresses b, accepted topics l.log = true := by
        apply h b
        split <;> exact mem_cons_self
      rw [filterByTopics_of_accepted hall]
      rw [← length_append] at h
      simp only [bind, Except.bind]
      split
      · exact ⟨_, rfl⟩
      · next hlimit =>
        rw [if_neg hlimit] at h
        exact ih fun b' hb' => h b' (mem_cons_of_mem _ hb')

theorem lookedAt_congr {found found' : Block T × List TxReceipt → List (LogEntry T)} {n size : Nat}
    {blocks : List (Block T × List TxReceipt)} (h : ∀ b ∈ lookedAt env found n size blocks, found' b = found b) :
    lookedAt env found' n size blocks = lookedAt env found n size blocks := by
  induction blocks generalizing n size with
  | nil => rfl
  | cons b blocks ih =>
    unfold lookedAt at h ⊢
    by_cases hempty : b.2 = []
    · rw [if_pos hempty] at h ⊢
      rw [if_pos hempty]
      exact ih h
    · rw [if_neg hempty] at h ⊢
      rw [if_neg hempty]
      have hb : found' b = found b := by
        apply h b
        split <;> exact mem_cons_self
      rw [hb]
      split
      · rfl
      · next hlimit =>
        rw [if_neg hlimit] at h
        rw [ih fun b' hb' => h b' (mem_cons_of_mem _ hb')]

theorem wanted_eq (b : Block T × List TxReceipt) :
    wanted addresses topics b = (addressed addresses b).filter fun l => accepted topics l.log := by
  unfold wanted addressed
  rw [filter_filter]
  exact filter_congr fun l _ => Bool.and_comm _ _

/-- The logs of a range that are asked for, up to the limits, are returned exactly where every
log with a listed address in the blocks that are looked at matches the topics. -/
theorem getLogs_iff {start stop : Block T} {blocks : List (Block T × List TxReceipt)}
    (h : Range env db start stop blocks) : getLogs env db addresses topics start stop =
        .ok ((lookedAt env (wanted addresses topics) 0 0 blocks).flatMap (wanted addresses topics)) ↔
      ∀ b ∈ lookedAt env (addressed addresses) 0 0 blocks, ∀ l ∈ blockLogs b.1 b.2,
        listed addresses l.log = true → accepted topics l.log = true := by
  unfold getLogs
  rw [← h.length_eq]
  constructor
  · intro hrun b hb l hl hlisted
    have hsame := getLogsFrom_ok h.chain h.stored hrun
    have hmem : l ∈ (lookedAt env (addressed addresses) 0 0 blocks).flatMap (addressed addresses) :=
      mem_flatMap.mpr ⟨b, hb, mem_filter.mpr ⟨hl, hlisted⟩⟩
    rw [nil_append, length_nil] at hsame
    rw [← hsame] at hmem
    obtain ⟨b', -, hwanted⟩ := mem_flatMap.mp hmem
    exact (Bool.and_eq_true_iff.mp (mem_filter.mp hwanted).2).2
  · intro hall
    have hall' : ∀ b ∈ lookedAt env (addressed addresses) 0 0 blocks,
        ∀ l ∈ addressed addresses b, accepted topics l.log = true := fun b hb l hl =>
      hall b hb l (mem_filter.mp hl).1 (mem_filter.mp hl).2
    have hwanted : ∀ b ∈ lookedAt env (addressed addresses) 0 0 blocks,
        wanted addresses topics b = addressed addresses b := fun b hb =>
      (wanted_eq b).trans (List.filter_eq_self.mpr (hall' b hb))
    obtain ⟨logs, hlogs⟩ := @getLogsFrom_of_accepted _ _ _ _ _ _ _ h.chain h.stored [] 0 hall'
    rw [hlogs, getLogsFrom_ok h.chain h.stored hlogs, nil_append, length_nil, lookedAt_congr hwanted]
    congr 1
    exact (flatMap_congr hwanted).symm

end

/-! ## A block with two logs -/

def twoLogs : List TxReceipt :=
  [⟨.status 1, 21000, [⟨List.replicate 20 1, [List.replicate 32 7], []⟩,
    ⟨List.replicate 20 1, [List.replicate 32 9], [5]⟩]⟩]

def sampleBlock : Block Unit := ⟨1, List.replicate 32 3, [()]⟩

def sampleEnv : Env Unit where
  getBlock i := if i = 1 then .ok sampleBlock else .error "No block found"
  jsonSize logs := 2 + 700 * logs.length

def sampleDb : MetaDB := ((saveReceipts (fun _ => none) sampleBlock twoLogs).toOption).getD fun _ => none

theorem sampleRange : Range sampleEnv sampleDb sampleBlock sampleBlock [(sampleBlock, twoLogs)] where
  length_eq := rfl
  chain := ⟨rfl, trivial⟩
  stored := by
    intro b hb
    obtain rfl := mem_singleton.mp hb
    obtain ⟨encoded, hencoded⟩ : ∃ encoded, encodeReceipts twoLogs = .ok encoded := ⟨_, rfl⟩
    have hsave : saveReceipts (fun _ => none) sampleBlock twoLogs = .ok sampleDb := by
      unfold sampleDb saveReceipts
      rw [hencoded]
      rfl
    apply stored_saveReceipts hsave (by intro r hr; obtain rfl := mem_singleton.mp hr; exact trivial)
    intro encoded hencoded
    have hlen : ((encodeReceipts twoLogs).toOption.all fun encoded => decide (encoded.length < 1000)) = true := by
      decide +kernel
    rw [hencoded] at hlen
    exact Nat.lt_trans (of_decide_eq_true hlen) (by decide)

/-- Both logs match a filter by their address. -/
theorem getLogs_sample :
    getLogs sampleEnv sampleDb (some [List.replicate 20 1]) [] sampleBlock sampleBlock =
      .ok ((lookedAt sampleEnv (wanted (some [List.replicate 20 1]) []) 0 0 [(sampleBlock, twoLogs)]).flatMap
        (wanted (some [List.replicate 20 1]) [])) :=
  (getLogs_iff sampleRange).mpr (by decide +kernel)

/-- A filter by the topic of the first log returns both, and one by a second topic throws. -/
theorem topics_ignored : Range sampleEnv sampleDb sampleBlock sampleBlock [(sampleBlock, twoLogs)] ∧
    getLogs sampleEnv sampleDb none [.topic (List.replicate 32 7)] sampleBlock sampleBlock =
      .ok (blockLogs sampleBlock twoLogs) ∧
    (wanted none [.topic (List.replicate 32 7)] (sampleBlock, twoLogs)).length = 1 ∧
    (blockLogs sampleBlock twoLogs).length = 2 ∧
    getLogs sampleEnv sampleDb none [.null, .topic (List.replicate 32 7)] sampleBlock sampleBlock =
      .error "Cannot read properties of undefined (reading 'length')" :=
  ⟨sampleRange, by decide +kernel, by decide +kernel, by decide +kernel, by decide +kernel⟩

end ReceiptsManager
