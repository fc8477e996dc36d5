-- SUMMARY: The forward block fetcher: requests, partial results and the jobs that wait, run and are done.
import Mathlib.Data.List.Infix
import TsEthereum.Base.Fallible
import TsEthereum.Rlp.Rlp
import TsEthereum.Utils.Account

/-!
# The block fetcher

`BlockFetcher.request` and `process`, and the part of `Fetcher` that moves a job between its
queue, the peers and the writer. A peer answers what it likes; building and validating a
block is a parameter.
-/

open List Option Except Nat

namespace BlockFetcher

/-! ## Requests -/

structure BlockHeader where
  number : Int
  transactionsTrie : Bytes
  uncleHash : Bytes
  /-- The fields that are only passed on. -/
  rest : List Rlp.Item
  deriving DecidableEq

structure BlockBody where
  txsData : List Rlp.Item
  unclesData : List Rlp.Item
  deriving DecidableEq

structure Block where
  header : BlockHeader
  body : BlockBody
  deriving DecidableEq

def Block.number (block : Block) : Int := block.header.number

structure Env where
  /-- `createBlockFromBytesArray` and `validateData(false)`, which throw or not. -/
  createBlock : BlockHeader → BlockBody → Except String Unit
  safeReorgDistance : Int

structure JobTask where
  first : Int
  count : Int
  deriving DecidableEq

/-- What a peer answers: headers, if it answers with an array, and bodies for each batch. -/
structure Reply where
  headers : Option (List BlockHeader)
  bodies : Nat → Option (List BlockBody)

def BATCH_SIZE : Nat := 50

/-- The bodies of the batches from one on, up to the first that comes back empty. -/
def Reply.bodiesFrom (reply : Reply) : Nat → Nat → List BlockBody
  | 0, _ => []
  | batches + 1, i =>
    match reply.bodies i with
    | some (body :: bodies) => (body :: bodies) ++ reply.bodiesFrom batches (i + 1)
    | _ => []

/-- The bodies for all headers. -/
def Reply.allBodies (reply : Reply) (headers : List BlockHeader) : List BlockBody :=
  reply.bodiesFrom ((headers.length + BATCH_SIZE - 1) / BATCH_SIZE) 0

def KECCAK256_RLP_ARRAY : Bytes :=
  [0x1d, 0xcc, 0x4d, 0xe8, 0xde, 0xc7, 0x5d, 0x7a, 0xab, 0x85, 0xb5, 0x67, 0xb6, 0xcc, 0xd4, 0x1a,
    0xd3, 0x12, 0x45, 0x1b, 0x94, 0x8a, 0x74, 0x13, 0xf0, 0xa1, 0x42, 0xfd, 0x40, 0xd4, 0x93, 0x47]

/-- Transactions or uncles are missing that the header commits to. -/
def missing (header : BlockHeader) (body : BlockBody) : Bool :=
  (header.transactionsTrie ≠ KECCAK256_RLP && body.txsData.length = 0) ||
    (header.uncleHash ≠ KECCAK256_RLP_ARRAY && body.unclesData.length = 0)

variable (env : Env)

/-- The loop of `request` that pairs bodies with headers. -/
def pairLoop (headers : List BlockHeader) : Nat → List BlockBody → List Block → Except String (List Block)
  | _, [], blocks => .ok blocks
  | i, body :: bodies, blocks =>
    match headers[i]? with
    | none => .error "Cannot read properties of undefined (reading 'transactionsTrie')"
    | some header =>
      if missing header body then .ok []
      else do
        env.createBlock header body
        pairLoop headers (i + 1) bodies (blocks ++ [⟨header, body⟩])

def request (reply : Reply) : Except String (List Block) :=
  match reply.headers with
  | none => .ok []
  | some headers =>
    if headers.length = 0 then .ok []
    else if (reply.allBodies headers).length = 0 then .ok []
    else pairLoop env headers 0 (reply.allBodies headers) []

/-! ## Jobs -/

inductive JobState where
  | idle | expired | active
  deriving DecidableEq

structure Job where
  task : JobTask
  result : Option (List Block)
  partialResult : Option (List Block)
  state : JobState
  deriving DecidableEq

/-- The number of the block that is asked for next, and how many are. -/
def Job.asked (job : Job) : Int × Int :=
  match job.partialResult with
  | some blocks => (job.task.first + blocks.length, job.task.count - blocks.length)
  | none => (job.task.first, job.task.count)

def process (job : Job) (result : List Block) : Job × Option (List Block) :=
  let result := job.partialResult.getD [] ++ result
  let job := { job with partialResult := none }
  if (result.length : Int) = job.task.count then (job, some result)
  else if 0 < result.length ∧ (result.length : Int) < job.task.count then
    ({ job with partialResult := some result }, none)
  else (job, none)

/-! ## The fetcher -/

/-- The jobs of a fetcher: waiting (`in`), asked of a peer, and done (`out` and the writer). -/
structure Fetcher where
  running : Bool
  queue : List Job
  asked : List Job
  out : List Job

namespace Fetcher

def new : Fetcher := ⟨false, [], [], []⟩

def enqueue (f : Fetcher) (job : Job) : Fetcher :=
  if f.running then { f with queue := f.queue ++ [{ job with state := .idle }] } else f

def enqueueTask (f : Fetcher) (task : JobTask) : Fetcher :=
  { f with queue := f.queue ++ [⟨task, none, none, .idle⟩] }

def success (f : Fetcher) (job : Job) (result : List Block) : Fetcher :=
  if job.state ≠ .active then f
  else if result.length = 0 then f.enqueue job
  else
    let (job, result) := process job result
    let job := { job with result := result }
    match result with
    | some _ => { f with out := f.out ++ [job] }
    | none => f.enqueue job

def failure (f : Fetcher) (jobItems : List Job) : Fetcher :=
  jobItems.foldl (fun f jobItem => if jobItem.state ≠ .active then f else f.enqueue jobItem) f

/-- The job at an index of the queue is given to a peer. -/
def next (f : Fetcher) (i : Nat) : Fetcher :=
  match f.queue[i]? with
  | none => f
  | some job =>
    { f with queue := f.queue.eraseIdx i, asked := f.asked ++ [{ job with state := .active }] }

/-- A peer's answer, or none where the request is rejected. -/
def answered (f : Fetcher) (i : Nat) (reply : Option Reply) : Fetcher :=
  match f.asked[i]? with
  | none => f
  | some job =>
    let f := { f with asked := f.asked.eraseIdx i }
    match reply.map (request env) with
    | some (.ok result) => f.success job result
    | some (.error _) | none => f.failure [job]

/-- A job that takes too long is queued again; its peer may still answer. -/
def expire (f : Fetcher) (i : Nat) : Fetcher :=
  match f.asked[i]? with
  | none => f
  | some job =>
    if job.state ≠ .active then f
    else { f with asked := f.asked.set i { job with state := .expired } }.enqueue job

def clear (f : Fetcher) : Fetcher := { f with queue := [] }

def stepBack (task : JobTask) : Int :=
  if task.first - 1 > env.safeReorgDistance then env.safeReorgDistance else task.first - 1

/-- The writer could not store the blocks of the first `n` jobs that are done. -/
def storeFailed (f : Fetcher) (n : Nat) (message : String) : Fetcher :=
  let jobItems := f.out.take n
  let f := { f with out := f.out.drop n }
  if ¬"could not find parent header".toList <:+: message.toList then { f with running := false }.clear
  else
    match jobItems with
    | [] => f
    | job :: jobs =>
      let task := ⟨job.task.first - stepBack env job.task, job.task.count + stepBack env job.task⟩
      f.failure ({ job with task := task } :: jobs)

end Fetcher

inductive Event where
  | fetch
  | stop
  | clear
  | enqueueTask (task : JobTask)
  | next (i : Nat)
  | answered (i : Nat) (reply : Option Reply)
  | expire (i : Nat)
  | stored (n : Nat)
  | storeFailed (n : Nat) (message : String)

def step (f : Fetcher) : Event → Fetcher
  | .fetch => { f with running := true }
  | .stop => { f with running := false }
  | .clear => f.clear
  | .enqueueTask task => f.enqueueTask task
  | .next i => f.next i
  | .answered i reply => f.answered env i reply
  | .expire i => f.expire i
  | .stored n => { f with out := f.out.drop n }
  | .storeFailed n message => f.storeFailed env n message

def run (f : Fetcher) (events : List Event) : Fetcher := events.foldl (step env) f

/-! ## What the numbers should be -/

def consecutive (first : Int) (n : Nat) : List Int := (List.range n).map fun (i : Nat) => first + (i : Int)

/-- The blocks are numbered from `first` on. -/
def Numbered (first : Int) (blocks : List Block) : Prop := blocks.map Block.number = consecutive first blocks.length

/-- What is kept of a job is the start of its blocks, and a job that is done has all of them. -/
structure Sound (f : Fetcher) : Prop where
  kept : ∀ job ∈ f.queue ++ f.asked, ∀ blocks ∈ job.partialResult, Numbered job.task.first blocks
  done : ∀ job ∈ f.out, job.partialResult = none ∧ ∃ result, job.result = some result ∧
    (result.length : Int) = job.task.count ∧ Numbered job.task.first result

/-- Each body goes with the header at its place. -/
def Pairs : List BlockHeader → List BlockBody → Prop
  | _, [] => True
  | [], _ :: _ => False
  | header :: headers, body :: bodies =>
    missing header body = false ∧ env.createBlock header body = .ok () ∧ Pairs headers bodies

/-- The reply has headers and bodies that go with them. -/
structure Accepted (reply : Reply) (headers : List BlockHeader) : Prop where
  headers_eq : reply.headers = some headers
  some_bodies : reply.allBodies headers ≠ []
  pairs : Pairs env headers (reply.allBodies headers)

/-- With `n` more blocks the job is done, or it keeps them for another round. -/
def Kept (f : Fetcher) (job : Job) (n : Nat) : Prop :=
  ((job.partialResult.getD []).length + n : Int) = job.task.count ∨
    f.running = true ∧ ((job.partialResult.getD []).length + n : Int) < job.task.count

/-- An answer that is kept has headers that are numbered from the block on that was asked for. -/
def Honest (f : Fetcher) : Event → Prop
  | .answered i (some reply) => ∀ job, f.asked[i]? = some job → job.state = .active →
    ∀ headers, Accepted env reply headers → Kept f job (reply.allBodies headers).length →
      (headers.take (reply.allBodies headers).length).map BlockHeader.number =
        consecutive job.asked.1 (reply.allBodies headers).length
  | _ => True

/-! ## Requests -/

section
variable {env}

theorem consecutive_add (first : Int) (m n : Nat) :
    consecutive first (m + n) = consecutive first m ++ consecutive (first + m) n := by
  unfold consecutive
  rw [List.range_add, List.map_append, List.map_map]
  congr 1
  apply List.map_congr_left
  intro i _
  rw [Function.comp_apply, Int.natCast_add, Int.add_assoc]

variable {blocks : List Block}

theorem numbered_append {first : Int} {kept : List Block} (h : Numbered first kept) :
    Numbered first (kept ++ blocks) ↔ blocks.map Block.number = consecutive (first + kept.length) blocks.length := by
  unfold Numbered at h ⊢
  rw [map_append, length_append, consecutive_add, h]
  exact append_cancel_left_eq .. |>.to_iff

theorem pairs_length : ∀ {headers : List BlockHeader} {bodies : List BlockBody}, Pairs env headers bodies →
    bodies.length ≤ headers.length
  | _, [], _ => Nat.zero_le _
  | [], _ :: _, h => h.elim
  | _ :: _, _ :: _, h => succ_le_succ (pairs_length h.2.2)

theorem numbers_zipWith : ∀ {headers : List BlockHeader} {bodies : List BlockBody}, bodies.length ≤ headers.length →
    (List.zipWith Block.mk headers bodies).map Block.number =
      (headers.take bodies.length).map BlockHeader.number
  | [], [], _ => rfl
  | _ :: _, [], _ => rfl
  | [], _ :: _, h => absurd h (not_succ_le_zero _)
  | header :: headers, body :: bodies, h => by
    rw [zipWith_cons_cons, map_cons, numbers_zipWith (le_of_succ_le_succ h), length_cons,
      take_succ_cons, map_cons]
    rfl

variable {headers : List BlockHeader} {i : Nat}

theorem pairLoop_of_pairs {bodies : List BlockBody} (h : Pairs env (headers.drop i) bodies)
    (blocks : List Block) :
    pairLoop env headers i bodies blocks = .ok (blocks ++ List.zipWith Block.mk (headers.drop i) bodies) := by
  induction bodies generalizing i blocks with
  | nil =>
    rw [zipWith_nil_right, append_nil]
    rfl
  | cons body bodies ih =>
    cases hdrop : headers.drop i with
    | nil =>
      rw [hdrop] at h
      exact h.elim
    | cons header rest =>
      rw [hdrop] at h
      have hheader : headers[i]? = some header := by
        rw [← Nat.add_zero i, ← getElem?_drop, hdrop]
        rfl
      have hrest : headers.drop (i + 1) = rest := by
        rw [← drop_drop, hdrop]
        rfl
      unfold pairLoop
      simp only [hheader, h.1, Bool.false_eq_true, if_false, h.2.1]
      rw [← hrest] at h ⊢
      rw [zipWith_cons_cons]
      exact (ih h.2.2 _).trans (congrArg Except.ok (append_cons blocks _ _).symm)

theorem pairs_of_pairLoop {bodies : List BlockBody} {result : List Block}
    (h : pairLoop env headers i bodies blocks = .ok result) :
    result = [] ∨ Pairs env (headers.drop i) bodies := by
  induction bodies generalizing i blocks with
  | nil =>
    right
    unfold Pairs
    trivial
  | cons body bodies ih =>
    unfold pairLoop at h
    split at h
    · cases h
    · next header hheader =>
      split at h
      · exact .inl (ok.inj h).symm
      · next hmissing =>
        obtain ⟨_, hcreate, h⟩ := bind_eq_ok.mp h
        apply (ih h).imp_right
        intro hpairs
        obtain ⟨hlt, rfl⟩ := List.getElem?_eq_some_iff.mp hheader
        rw [drop_eq_getElem_cons hlt]
        exact ⟨Bool.eq_false_iff.mpr hmissing, hcreate, hpairs⟩

/-- A request gives blocks where headers and bodies go together, and then gives all of them. -/
theorem request_of_accepted {reply : Reply} (h : Accepted env reply headers) :
    request env reply = .ok (List.zipWith Block.mk headers (reply.allBodies headers)) := by
  have hheaders : headers ≠ [] := by
    rintro rfl
    exact h.some_bodies rfl
  unfold request
  rw [h.headers_eq]
  dsimp only
  rw [if_neg (mt length_eq_zero_iff.mp hheaders), if_neg (mt length_eq_zero_iff.mp h.some_bodies)]
  exact pairLoop_of_pairs h.pairs []

theorem accepted_of_request {reply : Reply} (h : request env reply = .ok blocks) (hne : blocks ≠ []) :
    ∃ headers, Accepted env reply headers := by
  unfold request at h
  split at h
  · exact absurd (ok.inj h).symm hne
  · next headers hheaders =>
    split at h
    · exact absurd (ok.inj h).symm hne
    · split at h
      · exact absurd (ok.inj h).symm hne
      · next hbodies =>
        exact ⟨headers, hheaders, mt length_eq_zero_iff.mpr hbodies, (pairs_of_pairLoop h).resolve_left hne⟩

/-! ## Steps -/

theorem Job.asked_fst (job : Job) : job.asked.1 = job.task.first + (job.partialResult.getD []).length := by
  unfold Job.asked
  cases job.partialResult with
  | none => exact (Int.add_zero _).symm
  | some blocks => rfl

variable {job : Job}

/-- With blocks that arrived the job is done, keeps all it has, or nothing. -/
theorem process_eq {total : List Block} (hne : blocks ≠ [])
    (htotal : total = job.partialResult.getD [] ++ blocks) : process job blocks =
      if (total.length : Int) = job.task.count then ({ job with partialResult := none }, some total)
      else ({ job with partialResult := if (total.length : Int) < job.task.count then some total else none }, none) := by
  have hpos : 0 < total.length := by
    rw [htotal]
    exact List.length_pos_iff.mpr fun hnil => hne (append_eq_nil_iff.mp hnil).2
  unfold process
  rw [← htotal]
  dsimp only
  split
  · rfl
  · simp only [hpos, true_and]
    split <;> rfl

/-- What an answer does: the job is queued again as it was, or the reply is accepted, and then
the job is done, keeps the blocks, or loses all of them. -/
theorem answered_cases {f : Fetcher} {i : Nat} {job : Job} {reply : Option Reply}
    (hjob : f.asked[i]? = some job) (hactive : job.state = .active) :
    ((∀ r ∈ reply, ∀ headers, ¬Accepted env r headers) ∧
      f.answered env i reply = ({ f with asked := f.asked.eraseIdx i } : Fetcher).enqueue job) ∨
    ∃ r headers, reply = some r ∧ Accepted env r headers ∧
      ∃ total, total = job.partialResult.getD [] ++ List.zipWith Block.mk headers (r.allBodies headers) ∧
        f.answered env i reply =
          if (total.length : Int) = job.task.count then
            { f with asked := f.asked.eraseIdx i,
                     out := f.out ++ [{ job with partialResult := none, result := some total }] }
          else ({ f with asked := f.asked.eraseIdx i } : Fetcher).enqueue
            { job with partialResult := if (total.length : Int) < job.task.count then some total else none,
                       result := none } := by
  have hagain : ({ f with asked := f.asked.eraseIdx i } : Fetcher).failure [job] =
      ({ f with asked := f.asked.eraseIdx i } : Fetcher).enqueue job := if_neg (not_not.mpr hactive)
  unfold Fetcher.answered
  rw [hjob]
  dsimp only
  cases reply with
  | none => exact .inl ⟨fun r hr => (nomatch hr), hagain⟩
  | some r =>
    rw [map_some]
    by_cases haccepted : ∃ headers, Accepted env r headers
    · obtain ⟨headers, haccepted⟩ := haccepted
      right
      refine ⟨r, headers, rfl, haccepted, _, rfl, ?_⟩
      have hne : List.zipWith Block.mk headers (r.allBodies headers) ≠ [] := by
        rw [ne_eq, zipWith_eq_nil_iff]
        rintro (rfl | hnil)
        · exact haccepted.some_bodies rfl
        · exact haccepted.some_bodies hnil
      rw [request_of_accepted haccepted]
      dsimp only
      unfold Fetcher.success
      rw [if_neg (not_not.mpr hactive), if_neg (mt length_eq_zero_iff.mp hne), process_eq hne rfl]
      by_cases hdone : ((job.partialResult.getD [] ++
          List.zipWith Block.mk headers (r.allBodies headers)).length : Int) = job.task.count
      · rw [if_pos hdone, if_pos hdone]
      · rw [if_neg hdone, if_neg hdone]
    · left
      refine ⟨fun r' hr' headers h => haccepted ⟨headers, by rwa [some.inj hr']⟩, ?_⟩
      cases hrequest : request env r with
      | error e => exact hagain
      | ok blocks =>
        have hnil : blocks = [] := by
          by_contra hne
          exact haccepted (accepted_of_request hrequest hne)
        rw [hnil]
        dsimp only
        unfold Fetcher.success
        rw [if_neg (not_not.mpr hactive)]
        exact if_pos rfl

variable {f : Fetcher}

/-- The answer to a job that has expired is not looked at. -/
theorem answered_inactive {reply : Option Reply} (hjob : f.asked[i]? = some job)
    (hstate : job.state ≠ .active) :
    f.answered env i reply = { f with asked := f.asked.eraseIdx i } := by
  have hskip (f : Fetcher) : f.failure [job] = f := if_pos hstate
  have hsuccess (f : Fetcher) (result : List Block) : f.success job result = f := if_pos hstate
  unfold Fetcher.answered
  rw [hjob]
  dsimp only
  split
  · exact hsuccess _ _
  all_goals exact hskip _

/-- Jobs that are moved as they are, or dropped, stay sound. -/
theorem Sound.of_moved {f' : Fetcher} (h : Sound f)
    (hjobs : ∀ job ∈ f'.queue ++ f'.asked, ∃ job' ∈ f.queue ++ f.asked,
      job.task = job'.task ∧ job.partialResult = job'.partialResult)
    (hout : ∀ job ∈ f'.out, job ∈ f.out) : Sound f' where
  kept job hjob blocks hblocks := by
    obtain ⟨job', hjob', htask, hpart⟩ := hjobs job hjob
    rw [htask]
    exact h.kept job' hjob' blocks (by rwa [← hpart])
  done job hjob := h.done job (hout job hjob)

theorem sound_enqueue_iff (h : Sound f) (job : Job) : Sound (f.enqueue job) ↔
    (f.running = true → ∀ blocks ∈ job.partialResult, Numbered job.task.first blocks) := by
  unfold Fetcher.enqueue
  split
  · next hrunning =>
    constructor
    · intro hsound _ blocks hblocks
      exact hsound.kept { job with state := .idle }
        (mem_append_left _ (mem_append_right _ (mem_singleton_self _))) blocks hblocks
    · intro hjob
      refine ⟨fun job' hjob' => ?_, h.done⟩
      rcases mem_append.mp hjob' with hjob' | hjob'
      · rcases mem_append.mp hjob' with hjob' | hjob'
        · exact h.kept job' (mem_append_left _ hjob')
        · obtain rfl := mem_singleton.mp hjob'
          exact hjob hrunning
      · exact h.kept job' (mem_append_right _ hjob')
  · next hstopped => exact iff_of_true h fun hrunning => absurd hrunning hstopped

theorem Sound.failure (h : Sound f) {jobs : List Job}
    (hjobs : ∀ job ∈ jobs, ∀ blocks ∈ job.partialResult, Numbered job.task.first blocks) :
    Sound (f.failure jobs) := by
  unfold Fetcher.failure
  induction jobs generalizing f with
  | nil => exact h
  | cons job jobs ih =>
    rw [foldl_cons]
    apply ih _ fun job hjob => hjobs job (mem_cons_of_mem _ hjob)
    split
    · exact h
    · exact (sound_enqueue_iff h job).mpr fun _ => hjobs job mem_cons_self

theorem Sound.eraseAsked (h : Sound f) (i : Nat) : Sound { f with asked := f.asked.eraseIdx i } :=
  h.of_moved (fun job hjob => by
    refine ⟨job, ?_, rfl, rfl⟩
    rcases mem_append.mp hjob with hjob | hjob
    · exact mem_append_left _ hjob
    · exact mem_append_right _ (mem_of_mem_eraseIdx hjob)) fun _ hjob => hjob

theorem Sound.next {f : Fetcher} (h : Sound f) (i : Nat) : Sound (f.next i) := by
  unfold Fetcher.next
  split
  · exact h
  · next job hjob =>
    refine h.of_moved (fun job' hjob' => ?_) fun _ hjob => hjob
    rcases mem_append.mp hjob' with hjob' | hjob'
    · exact ⟨job', mem_append_left _ (mem_of_mem_eraseIdx hjob'), rfl, rfl⟩
    rcases mem_append.mp hjob' with hjob' | hjob'
    · exact ⟨job', mem_append_right _ hjob', rfl, rfl⟩
    · obtain rfl := mem_singleton.mp hjob'
      exact ⟨job, mem_append_left _ (mem_of_getElem? hjob), rfl, rfl⟩

theorem Sound.expire (h : Sound f) (i : Nat) : Sound (f.expire i) := by
  unfold Fetcher.expire
  split
  · exact h
  · next job hjob =>
    have hmem := mem_of_getElem? hjob
    split
    · exact h
    · apply (sound_enqueue_iff _ job).mpr fun _ => h.kept job (mem_append_right _ hmem)
      refine h.of_moved (fun job' hjob' => ?_) fun _ hjob => hjob
      rcases mem_append.mp hjob' with hjob' | hjob'
      · exact ⟨job', mem_append_left _ hjob', rfl, rfl⟩
      rcases mem_or_eq_of_mem_set hjob' with hjob' | rfl
      · exact ⟨job', mem_append_right _ hjob', rfl, rfl⟩
      · exact ⟨job, mem_append_right _ hmem, rfl, rfl⟩

theorem Sound.dropOut (h : Sound f) (n : Nat) : Sound { f with out := f.out.drop n } :=
  ⟨h.kept, fun job hjob => h.done job (mem_of_mem_drop hjob)⟩

theorem Sound.clear (h : Sound f) : Sound f.clear :=
  ⟨fun job hjob => h.kept job (mem_append_right _ hjob), h.done⟩

theorem Sound.storeFailed (h : Sound f) (n : Nat) (message : String) :
    Sound (f.storeFailed env n message) := by
  unfold Fetcher.storeFailed
  dsimp only
  split
  · exact ⟨(h.dropOut n).clear.kept, (h.dropOut n).clear.done⟩
  · have hnone : ∀ job ∈ f.out.take n, job.partialResult = none := fun job hjob =>
      (h.done job (mem_of_mem_take hjob)).1
    split
    · exact h.dropOut n
    · next job jobs hjobs =>
      rw [hjobs] at hnone
      apply (h.dropOut n).failure
      intro job' hjob' blocks hblocks
      have hkept : job'.partialResult = none := by
        rcases mem_cons.mp hjob' with rfl | hjob'
        · exact hnone job mem_cons_self
        · exact hnone job' (mem_cons_of_mem _ hjob')
      rw [hkept] at hblocks
      cases hblocks

theorem sound_done_iff {f : Fetcher} (h : Sound f) {job : Job} {result : List Block}
    (hresult : job.result = some result) (hpart : job.partialResult = none)
    (hcount : (result.length : Int) = job.task.count) :
    Sound { f with out := f.out ++ [job] } ↔ Numbered job.task.first result := by
  constructor
  · intro hsound
    obtain ⟨-, result', hresult', -, hnumbered⟩ :=
      hsound.done job (mem_append_right _ (mem_singleton_self job))
    rwa [some.inj (hresult.symm.trans hresult')]
  · intro hnumbered
    refine ⟨h.kept, fun job' hjob' => ?_⟩
    rcases mem_append.mp hjob' with hjob' | hjob'
    · exact h.done job' hjob'
    · obtain rfl := mem_singleton.mp hjob'
      exact ⟨hpart, result, hresult, hcount, hnumbered⟩

/-- What an honest answer means for an accepted reply. -/
theorem honest_iff {r : Reply} (hjob : f.asked[i]? = some job) (hactive : job.state = .active)
    (haccepted : Accepted env r headers) :
    Honest env f (.answered i (some r)) ↔ (Kept f job (r.allBodies headers).length →
      (headers.take (r.allBodies headers).length).map BlockHeader.number =
        consecutive job.asked.1 (r.allBodies headers).length) := by
  constructor
  · exact fun h => h job hjob hactive headers haccepted
  · intro h job' hjob' _ headers' haccepted'
    obtain rfl := some.inj (hjob.symm.trans hjob')
    obtain rfl := some.inj (haccepted.headers_eq.symm.trans haccepted'.headers_eq)
    exact h

theorem sound_answered_iff (h : Sound f) (i : Nat) (reply : Option Reply) :
    Sound (f.answered env i reply) ↔ Honest env f (.answered i reply) := by
  cases hjob : f.asked[i]? with
  | none =>
    have hsame : f.answered env i reply = f := by
      unfold Fetcher.answered
      rw [hjob]
    rw [hsame]
    refine iff_of_true h ?_
    cases reply with
    | none => trivial
    | some r => exact fun job hjob' => (nomatch hjob.symm.trans hjob')
  | some job =>
    by_cases hactive : job.state = .active
    · have hkept := h.kept job (mem_append_right _ (mem_of_getElem? hjob))
      rcases @answered_cases env f i job reply hjob hactive with
        ⟨hnot, heq⟩ | ⟨r, headers, rfl, haccepted, total, htotal, heq⟩
      · rw [heq]
        refine iff_of_true ((sound_enqueue_iff (h.eraseAsked i) job).mpr fun _ => hkept) ?_
        cases reply with
        | none => trivial
        | some r => exact fun _ _ _ headers haccepted => absurd haccepted (hnot r rfl headers)
      · rw [heq, honest_iff hjob hactive haccepted]
        have hlen := pairs_length haccepted.pairs
        have hzip : (List.zipWith Block.mk headers (r.allBodies headers)).length = (r.allBodies headers).length := by
          rw [length_zipWith, Nat.min_eq_right hlen]
        have hstart : Numbered job.task.first (job.partialResult.getD []) := by
          cases hpart : job.partialResult with
          | none => rfl
          | some blocks => exact hkept blocks hpart
        have hnumbered : Numbered job.task.first total ↔
            (headers.take (r.allBodies headers).length).map BlockHeader.number =
              consecutive job.asked.1 (r.allBodies headers).length := by
          rw [htotal, numbered_append hstart, numbers_zipWith hlen, hzip, Job.asked_fst]
        have hcount : (total.length : Int) =
            ((job.partialResult.getD []).length + (r.allBodies headers).length : Int) := by
          rw [htotal, length_append, hzip, Int.natCast_add]
        rw [← hnumbered]
        unfold Kept
        rw [← hcount]
        split
        · next hdone =>
          refine (@sound_done_iff _ (h.eraseAsked i) { job with partialResult := none, result := some total }
            total rfl rfl hdone).trans ?_
          exact ⟨fun hn _ => hn, fun hn => hn (.inl hdone)⟩
        · next hdone =>
          rw [sound_enqueue_iff (h.eraseAsked i)]
          split
          · next hless =>
            constructor
            · intro hall hk
              exact hall (hk.resolve_left hdone).1 total rfl
            · intro hn hrunning blocks hblocks
              obtain rfl := some.inj hblocks
              exact hn (.inr ⟨hrunning, hless⟩)
          · next hless =>
            refine iff_of_true (fun _ blocks hblocks => (nomatch hblocks)) fun hk => ?_
            exact absurd (hk.resolve_left hdone).2 hless
    · rw [answered_inactive hjob hactive]
      refine iff_of_true (h.eraseAsked i) ?_
      cases reply with
      | none => trivial
      | some r => exact fun job' hjob' hactive' => absurd (some.inj (hjob.symm.trans hjob') ▸ hactive') hactive

theorem sound_step_iff (h : Sound f) (e : Event) : Sound (step env f e) ↔ Honest env f e := by
  cases e with
  | fetch => exact iff_of_true ⟨h.kept, h.done⟩ trivial
  | stop => exact iff_of_true ⟨h.kept, h.done⟩ trivial
  | clear => exact iff_of_true h.clear trivial
  | enqueueTask task =>
    refine iff_of_true ⟨fun job hjob => ?_, h.done⟩ trivial
    rcases mem_append.mp hjob with hjob | hjob
    · rcases mem_append.mp hjob with hjob | hjob
      · exact h.kept job (mem_append_left _ hjob)
      · obtain rfl := mem_singleton.mp hjob
        exact fun blocks hblocks => (nomatch hblocks)
    · exact h.kept job (mem_append_right _ hjob)
  | next i => exact iff_of_true (h.next i) trivial
  | answered i reply => exact sound_answered_iff h i reply
  | expire i => exact iff_of_true (h.expire i) trivial
  | stored n => exact iff_of_true (h.dropOut n) trivial
  | storeFailed n message => exact iff_of_true (h.storeFailed n message) trivial

/-! ## Runs -/

theorem sound_new : Sound .new := ⟨fun _ hjob => (nomatch hjob), fun _ hjob => (nomatch hjob)⟩

theorem run_sound (events : List Event) :
    (∀ n ≤ events.length, Sound (run env .new (events.take n))) ↔
      ∀ n (hn : n < events.length), Honest env (run env .new (events.take n)) events[n] := by
  have hstep (n : Nat) (hn : n < events.length) :
      run env .new (events.take (n + 1)) = step env (run env .new (events.take n)) events[n] := by
    unfold run
    rw [take_add_one, getElem?_eq_getElem hn, foldl_append]
    rfl
  constructor
  · intro h n hn
    have hafter := h (n + 1) hn
    rw [hstep n hn] at hafter
    exact (sound_step_iff (h n (Nat.le_of_lt hn)) _).mp hafter
  · intro h n
    induction n with
    | zero => exact fun _ => sound_new
    | succ n ih =>
      intro hn
      rw [hstep n hn]
      exact (sound_step_iff (ih (Nat.le_of_lt hn)) _).mpr (h n hn)

/-- An answer to a job under way finishes it, or it is queued again. -/
theorem answered_requeues (hrunning : f.running = true) (hjob : f.asked[i]? = some job)
    (hactive : job.state = .active) (reply : Option Reply) : ∃ job', job'.task = job.task ∧
      (((f.answered env i reply).out = f.out ++ [job'] ∧ (f.answered env i reply).queue = f.queue ∧
          ∃ result, job'.result = some result ∧ (result.length : Int) = job.task.count) ∨
        (f.answered env i reply).queue = f.queue ++ [job'] ∧ (f.answered env i reply).out = f.out) := by
  have hqueued (job' : Job) : (({ f with asked := f.asked.eraseIdx i } : Fetcher).enqueue job') =
      { f with asked := f.asked.eraseIdx i, queue := f.queue ++ [{ job' with state := .idle }] } := if_pos hrunning
  rcases @answered_cases env f i job reply hjob hactive with
    ⟨-, heq⟩ | ⟨r, headers, rfl, -, total, -, heq⟩
  · rw [heq, hqueued]
    exact ⟨{ job with state := .idle }, rfl, .inr ⟨rfl, rfl⟩⟩
  · rw [heq]
    split
    · next hdone =>
      exact ⟨{ job with partialResult := none, result := some total }, rfl, .inl ⟨rfl, rfl, total, rfl, hdone⟩⟩
    · rw [hqueued]
      exact ⟨⟨job.task, none, if (total.length : Int) < job.task.count then some total else none, .idle⟩, rfl,
        .inr ⟨rfl, rfl⟩⟩

end

/-- Every state of a run is sound where every step of it is honest, and an answer finishes its
job or queues it again. -/
theorem fetcher_sound_iff (events : List Event) :
    ((∀ n ≤ events.length, Sound (run env .new (events.take n))) ↔
      ∀ n (hn : n < events.length), Honest env (run env .new (events.take n)) events[n]) ∧
    ∀ f : Fetcher, f.running = true → ∀ i job, f.asked[i]? = some job → job.state = .active →
      ∀ reply, ∃ job', job'.task = job.task ∧
        (((f.answered env i reply).out = f.out ++ [job'] ∧ (f.answered env i reply).queue = f.queue ∧
            ∃ result, job'.result = some result ∧ (result.length : Int) = job.task.count) ∨
          (f.answered env i reply).queue = f.queue ++ [job'] ∧ (f.answered env i reply).out = f.out) :=
  ⟨run_sound events, fun _ hrunning _ _ hjob hactive reply => answered_requeues hrunning hjob hactive reply⟩

/-! ## A job of one block -/

def trusting : Env := ⟨fun _ _ => .ok (), 100⟩

def emptyBlock (number : Int) : BlockHeader := ⟨number, KECCAK256_RLP, KECCAK256_RLP_ARRAY, []⟩

/-- Block 5 is asked for, and the answer is an empty block of some number. -/
def answeredWith (number : Int) : List Event :=
  [.fetch, .enqueueTask ⟨5, 1⟩, .next 0, .answered 0 (some ⟨some [emptyBlock number], fun _ => some [⟨[], []⟩]⟩)]

theorem fetcher_sound_block :
    ∀ n ≤ (answeredWith 5).length, Sound (run trusting .new ((answeredWith 5).take n)) := by
  apply (fetcher_sound_iff trusting (answeredWith 5)).1.mpr
  intro n hn
  match n, hn with
  | 0, _ => trivial
  | 1, _ => trivial
  | 2, _ => trivial
  | 3, _ =>
    intro job hjob _ headers haccepted _
    obtain rfl := some.inj hjob
    obtain rfl := some.inj haccepted.headers_eq
    decide

/-- Block 9 is stored for the job of block 5. -/
theorem wrong_number : (run trusting .new (answeredWith 9)).out =
      [⟨⟨5, 1⟩, some [⟨emptyBlock 9, ⟨[], []⟩⟩], none, .active⟩] ∧
    ¬Sound (run trusting .new (answeredWith 9)) := by
  have hout : (run trusting .new (answeredWith 9)).out =
      [⟨⟨5, 1⟩, some [⟨emptyBlock 9, ⟨[], []⟩⟩], none, .active⟩] := by decide +kernel
  refine ⟨hout, fun hsound => ?_⟩
  obtain ⟨-, result, hresult, -, hnumbered⟩ := hsound.done _ (by rw [hout]; exact mem_singleton_self _)
  obtain rfl := some.inj hresult
  exact absurd hnumbered (by unfold Numbered; decide)

end BlockFetcher
