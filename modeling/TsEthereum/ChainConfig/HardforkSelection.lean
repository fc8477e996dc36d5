-- SUMMARY: Hardfork selection by block number and timestamp, and what a run of selections and overrides leaves.
import TsEthereum.Base.OrderedMap
import TsEthereum.ChainConfig.GlobalConfig

/-!
# Hardfork selection

The part of `GlobalConfig` that follows the chain: the hardfork that a block number
and a timestamp ask for, the switch to it, and the parameter overrides that the
switch drops. Block numbers and timestamps are the integers that `toType` yields.
-/

open List

/-- The value of the enumeration. -/
def Hardfork.text : Hardfork → String
  | Chainstart => "chainstart" | Homestead => "homestead" | Dao => "dao"
  | TangerineWhistle => "tangerineWhistle" | SpuriousDragon => "spuriousDragon"
  | Byzantium => "byzantium" | Constantinople => "constantinople" | Petersburg => "petersburg"
  | Istanbul => "istanbul" | MuirGlacier => "muirGlacier" | Berlin => "berlin"
  | London => "london" | ArrowGlacier => "arrowGlacier" | GrayGlacier => "grayGlacier"
  | MergeNetsplitBlock => "mergeNetsplitBlock" | Paris => "paris" | Shanghai => "shanghai"
  | Cancun => "cancun" | Prague => "prague" | Osaka => "osaka" | Bpo1 => "bpo1"
  | Bpo2 => "bpo2" | Bpo3 => "bpo3" | Bpo4 => "bpo4" | Bpo5 => "bpo5"

namespace HardforkSelection

/-! ## The data -/

/-- The name in a chain configuration: a member of the enumeration, or a string that is none. -/
inductive HardforkName where
  | known (hf : Hardfork)
  | other (name : String)
  deriving DecidableEq, Repr

namespace HardforkName

def text : HardforkName → String
  | known hf => hf.text
  | other name => name

/-- `HARDFORK_ORDER.findIndex((hf) => hf === hardfork)`. -/
def orderIndex : HardforkName → Int
  | known hf => hf.index
  | other _ => -1

theorem orderIndex_ge : ∀ hf : HardforkName, -1 ≤ hf.orderIndex
  | known hf => by simp only [orderIndex]; omega
  | other _ => Int.le_refl _

end HardforkName

/-- A timestamp as the configuration spells it, a number or a string, with its `BigInt`. -/
structure Timestamp where
  spelling : Option String
  value : Int
  deriving DecidableEq, Repr

structure HardforkTransitionConfig where
  name : HardforkName
  block : Option Int
  timestamp : Option Timestamp
  deriving DecidableEq, Repr

structure HardforkByOpts where
  blockNumber : Option Int
  timestamp : Option Int
  deriving DecidableEq, Repr

inductive Failure where
  | noHardforkAtBlock0
  /-- The name of a hardfork that is not there is read. -/
  | typeError
  | notSupported (hardfork : HardforkName)
  deriving DecidableEq, Repr

def Failure.message : Failure → String
  | noHardforkAtBlock0 => "Must have at least one hardfork at block 0"
  | typeError => "Cannot read properties of undefined (reading 'name')"
  | notSupported hardfork => "Hardfork with name " ++ hardfork.text ++ " not supported"

/-! ## The hardfork that a block asks for -/

/-- The filter of `getHardforkBy`. -/
def HardforkTransitionConfig.scheduled (hf : HardforkTransitionConfig) : Bool :=
  hf.block.isSome || hf.timestamp.isSome

/-- The hardfork starts after the block number or after the timestamp. -/
def HardforkTransitionConfig.startsAfter (opts : HardforkByOpts) (hf : HardforkTransitionConfig) :
    Bool :=
  (match opts.blockNumber, hf.block with
    | some blockNumber, some block => decide (block > blockNumber)
    | _, _ => false) ||
  (match opts.timestamp, hf.timestamp with
    | some timestamp, some start => decide (start.value > timestamp)
    | _, _ => false)

/-- The last of the hardforks that start together with the first one of the list. -/
def lastOfSameStart : List HardforkTransitionConfig → Except Failure HardforkName
  | [] => .error .typeError
  | [hf] => .ok hf.name
  | hf :: next :: hfs =>
    if hf.block ≠ next.block ∨ hf.timestamp ≠ next.timestamp then .ok hf.name
    else lastOfSameStart (next :: hfs)

/-- The loop of `getHardforkBy` from an index on; index -1 arises where nothing is scheduled. -/
def nameFrom (hfs : List HardforkTransitionConfig) (hfIndex : Int) : Except Failure HardforkName :=
  if hfIndex < 0 then .error .typeError else lastOfSameStart (hfs.drop hfIndex.toNat)

/-- `hfs.slice(0, hfIndex).reverse().findIndex((hf) => hf.block !== null)`. -/
def stepBack (hfs : List HardforkTransitionConfig) (hfIndex : Nat) : Int :=
  match (hfs.take hfIndex).reverse.findIdx? fun hf => hf.block.isSome with
  | some i => i
  | none => -1

def getHardforkBy (hardforks : List HardforkTransitionConfig) (opts : HardforkByOpts) :
    Except Failure HardforkName :=
  let hfs := hardforks.filter HardforkTransitionConfig.scheduled
  match hfs.findIdx? (HardforkTransitionConfig.startsAfter opts) with
  | some 0 => .error .noHardforkAtBlock0
  | found =>
    let hfIndex := found.getD hfs.length
    let hfIndex : Int := if opts.timestamp = none then hfIndex - stepBack hfs hfIndex else hfIndex
    nameFrom hfs (hfIndex - 1)

/-! ## The parameters -/

/-- The set that `getCumulativeEIPs` fills, in its insertion order. -/
def getCumulativeEIPs (hardfork : HardforkName) : List Nat :=
  ((HARDFORK_ORDER.take (hardfork.orderIndex + 1).toNat).flatMap Hardfork.eips).eraseDups

structure HardforkParamManager (α : Type) where
  currentHardfork : HardforkName
  overrides : OrderedMap String α

variable {α : Type}

/-- The parameter of the last active EIP that has it. -/
def eipParam (getRawParam : Nat → String → Option α) (hardfork : HardforkName) (name : String) :
    Option α :=
  (getCumulativeEIPs hardfork).foldl
    (fun result eip => match getRawParam eip name with
      | some value => some value
      | none => result) none

namespace HardforkParamManager

def new (hardfork : HardforkName) : HardforkParamManager α := ⟨hardfork, .empty⟩

def getParam (getRawParam : Nat → String → Option α) (m : HardforkParamManager α)
    (name : String) : Option α :=
  match m.overrides.get name with
  | some override => some override
  | none => eipParam getRawParam m.currentHardfork name

/-- `{ ...this._overrides, ...overrides }`. -/
def updateParams (m : HardforkParamManager α) (overrides : OrderedMap String α) :
    HardforkParamManager α :=
  { m with overrides := overrides.entries.foldl (fun all e => all.set e.1 e.2) m.overrides }

def withHardfork (_m : HardforkParamManager α) (hardfork : HardforkName) :
    HardforkParamManager α :=
  new hardfork

theorem updateParams_get (m : HardforkParamManager α) (overrides : OrderedMap String α)
    (name : String) : (m.updateParams overrides).overrides.get name =
      (overrides.get name).or (m.overrides.get name) := by
  have hread := OrderedMap.read_foldl_entries
    (fun (all : OrderedMap String α) e => all.set e.1 e.2) (fun all k => all.get k) some
    (fun all e k => all.get_set e.1 k e.2) overrides m.overrides name
  simp only [updateParams, hread]
  cases overrides.get name <;> rfl

end HardforkParamManager

/-! ## The configuration -/

structure GlobalConfig (α : Type) where
  hardforks : List HardforkTransitionConfig
  currentHardfork : HardforkName
  hardforkParams : HardforkParamManager α

namespace GlobalConfig

def new (hardforks : List HardforkTransitionConfig) (hardfork : Option HardforkName) :
    GlobalConfig α where
  hardforks := hardforks
  currentHardfork := hardfork.getD (.known .Chainstart)
  hardforkParams := .new (hardfork.getD (.known .Chainstart))

def hardfork (c : GlobalConfig α) : HardforkName := c.currentHardfork

def isValidHardfork (c : GlobalConfig α) (hardfork : HardforkName) : Bool :=
  -- the name itself is returned here, and the empty one is false
  if hardfork = c.currentHardfork then decide (hardfork ≠ .other "")
  else hardfork.orderIndex ≠ -1 && decide (hardfork.orderIndex > c.currentHardfork.orderIndex)

def setHardfork (c : GlobalConfig α) (hardfork : HardforkName) :
    Except Failure (GlobalConfig α) :=
  if c.isValidHardfork hardfork then
    .ok { c with
      currentHardfork := hardfork
      hardforkParams := c.hardforkParams.withHardfork hardfork }
  else .error (.notSupported hardfork)

def setHardforkBy (c : GlobalConfig α) (opts : HardforkByOpts) :
    Except Failure (HardforkName × GlobalConfig α) :=
  match getHardforkBy c.hardforks opts with
  | .error failure => .error failure
  | .ok hardfork =>
    match c.setHardfork hardfork with
    | .error failure => .error failure
    | .ok c' => .ok (hardfork, c')

def getParam (getRawParam : Nat → String → Option α) (c : GlobalConfig α) (name : String) :
    Option α :=
  c.hardforkParams.getParam getRawParam name

def updateParams (c : GlobalConfig α) (overrides : OrderedMap String α) : GlobalConfig α :=
  { c with hardforkParams := c.hardforkParams.updateParams overrides }

def copy (c : GlobalConfig α) : GlobalConfig α :=
  let copy := new c.hardforks (some c.currentHardfork)
  if c.hardforkParams.overrides.entries.length > 0 then
    copy.updateParams c.hardforkParams.overrides
  else copy

/-! ## Runs -/

inductive Call (α : Type) where
  | setHardforkBy (opts : HardforkByOpts)
  | updateParams (overrides : OrderedMap String α)

/-- A call that throws leaves the configuration as it was. -/
def call (c : GlobalConfig α) : Call α → GlobalConfig α
  | .setHardforkBy opts =>
    match c.setHardforkBy opts with
    | .error _ => c
    | .ok (_, c') => c'
  | .updateParams overrides => c.updateParams overrides

def run (c : GlobalConfig α) (calls : List (Call α)) : GlobalConfig α := calls.foldl call c

/-- The hardforks that the calls ask for. -/
def asked (hardforks : List HardforkTransitionConfig) (calls : List (Call α)) :
    List HardforkName :=
  calls.filterMap fun
    | .setHardforkBy opts => (getHardforkBy hardforks opts).toOption
    | .updateParams _ => none

/-- The hardfork that is set already, or one that comes later. -/
def Follows (hardfork current : HardforkName) : Prop :=
  hardfork = current ∧ hardfork ≠ .other "" ∨ current.orderIndex < hardfork.orderIndex

/-- A call that neither switches the hardfork nor overrides the parameter. -/
def LeavesParam (name : String) (c : GlobalConfig α) : Call α → Prop
  | .setHardforkBy opts => ∃ failure, c.setHardforkBy opts = .error failure
  | .updateParams overrides => overrides.get name = none

/-- The calls of a run, none of which touches the parameter. -/
def Untouched (name : String) : GlobalConfig α → List (Call α) → Prop
  | _, [] => True
  | c, k :: ks => LeavesParam name c k ∧ Untouched name (c.call k) ks

variable {c : GlobalConfig α}

theorem isValidHardfork_iff {hardfork : HardforkName} :
    c.isValidHardfork hardfork = true ↔ Follows hardfork c.hardfork := by
  have hlow := HardforkName.orderIndex_ge c.currentHardfork
  simp only [isValidHardfork, Follows, GlobalConfig.hardfork]
  split
  · rename_i heq
    simp [heq]
  · rename_i hne
    simp only [ne_eq, decide_not, gt_iff_lt, Bool.and_eq_true, Bool.not_eq_true',
      decide_eq_false_iff_not, decide_eq_true_eq, hne, false_and, false_or]
    exact ⟨And.right, fun hlt => ⟨fun hnone => by omega, hlt⟩⟩

/-- The state after a switch: nothing of the old parameter manager is kept. -/
def switched (c : GlobalConfig α) (hardfork : HardforkName) : GlobalConfig α :=
  { c with currentHardfork := hardfork, hardforkParams := .new hardfork }

variable {opts : HardforkByOpts} {hf : HardforkName}

theorem setHardforkBy_follows (h : getHardforkBy c.hardforks opts = .ok hf)
    (hfollows : Follows hf c.hardfork) : c.setHardforkBy opts = .ok (hf, c.switched hf) := by
  simp only [setHardforkBy, h, setHardfork, isValidHardfork_iff.mpr hfollows, if_true]
  rfl

theorem setHardforkBy_not_follows (h : getHardforkBy c.hardforks opts = .ok hf)
    (hfollows : ¬ Follows hf c.hardfork) : c.setHardforkBy opts = .error (.notSupported hf) := by
  have hinvalid := mt isValidHardfork_iff.mp hfollows
  simp only [setHardforkBy, h, setHardfork, if_neg hinvalid]

theorem setHardforkBy_error {failure : Failure}
    (h : getHardforkBy c.hardforks opts = .error failure) :
    c.setHardforkBy opts = .error failure := by
  simp only [setHardforkBy, h]

/-- What a call does: nothing that concerns the hardfork, or the switch that was asked for. -/
theorem call_cases (c : GlobalConfig α) (k : Call α) :
    ((c.call k).hardforks = c.hardforks ∧ (c.call k).hardfork = c.hardfork ∧
      (c.call k).hardforkParams.currentHardfork = c.hardforkParams.currentHardfork ∧
      ∀ opts hf, k = .setHardforkBy opts → getHardforkBy c.hardforks opts = .ok hf →
        hf.orderIndex ≤ c.hardfork.orderIndex) ∨
    ∃ opts hf, k = .setHardforkBy opts ∧ getHardforkBy c.hardforks opts = .ok hf ∧
      Follows hf c.hardfork ∧ c.call k = c.switched hf := by
  cases k with
  | updateParams overrides => exact Or.inl ⟨rfl, rfl, rfl, fun _ _ h => nomatch h⟩
  | setHardforkBy opts =>
    cases hby : getHardforkBy c.hardforks opts with
    | error failure =>
      have hcall : c.call (.setHardforkBy opts) = c := by
        simp only [call, setHardforkBy_error hby]
      refine Or.inl ⟨by rw [hcall], by rw [hcall], by rw [hcall], ?_⟩
      rintro _ hf ⟨rfl⟩ hok
      cases hby.symm.trans hok
    | ok asked =>
      by_cases hfollows : Follows asked c.hardfork
      · refine Or.inr ⟨opts, asked, rfl, hby, hfollows, ?_⟩
        simp only [call, setHardforkBy_follows hby hfollows]
      · have hcall : c.call (.setHardforkBy opts) = c := by
          simp only [call, setHardforkBy_not_follows hby hfollows]
        refine Or.inl ⟨by rw [hcall], by rw [hcall], by rw [hcall], ?_⟩
        rintro _ hf ⟨rfl⟩ hok
        cases Except.ok.inj (hby.symm.trans hok)
        exact Int.not_lt.mp fun hlt => hfollows (Or.inr hlt)

/-- The hardfork that a run from `first` has come to: the latest that was asked for. -/
structure LatestOf (first : HardforkName) (asks : List HardforkName) (hf : HardforkName) :
    Prop where
  mem : hf ∈ first :: asks
  upper : ∀ h ∈ first :: asks, h.orderIndex ≤ hf.orderIndex

theorem Follows.le {hardfork current : HardforkName} (h : Follows hardfork current) :
    current.orderIndex ≤ hardfork.orderIndex := by
  rcases h with ⟨heq, -⟩ | hlt
  · exact heq ▸ Int.le_refl _
  · exact Int.le_of_lt hlt

/-- Each call asks for at most one hardfork. -/
theorem asked_cons (hardforks : List HardforkTransitionConfig) (k : Call α) (ks : List (Call α)) :
    asked hardforks (k :: ks) = asked hardforks [k] ++ asked hardforks ks := by
  simp only [asked, ← filterMap_append]
  rfl

theorem mem_asked_singleton {hardforks : List HardforkTransitionConfig} {k : Call α} :
    hf ∈ asked hardforks [k] ↔
      ∃ opts, k = .setHardforkBy opts ∧ getHardforkBy hardforks opts = .ok hf := by
  cases k with
  | updateParams overrides => simp [asked]
  | setHardforkBy opts =>
    cases hby : getHardforkBy hardforks opts <;> simp [asked, hby, Except.toOption, eq_comm]

theorem call_hardforks (c : GlobalConfig α) (k : Call α) : (c.call k).hardforks = c.hardforks := by
  rcases call_cases c k with ⟨h, -⟩ | ⟨opts, hf, -, -, -, h⟩
  · exact h
  · exact h ▸ rfl

theorem call_latest (c : GlobalConfig α) (k : Call α) :
    LatestOf c.hardfork (asked c.hardforks [k]) (c.call k).hardfork := by
  rcases call_cases c k with ⟨-, hsame, -, hle⟩ | ⟨opts, hf, hk, hby, hfollows, hcall⟩
  · constructor
    · exact hsame ▸ mem_cons_self
    · intro h hmem
      rcases mem_cons.mp hmem with rfl | hasked
      · exact Int.le_of_eq (congrArg HardforkName.orderIndex hsame.symm)
      · obtain ⟨opts, hk, hby⟩ := mem_asked_singleton.mp hasked
        exact hsame ▸ hle opts h hk hby
  · have hmem : hf ∈ asked c.hardforks [k] := mem_asked_singleton.mpr ⟨opts, hk, hby⟩
    have hnow : (c.call k).hardfork = hf := hcall ▸ rfl
    constructor
    · exact hnow ▸ mem_cons_of_mem c.hardfork hmem
    · intro h hmem'
      rcases mem_cons.mp hmem' with rfl | hasked
      · exact hnow ▸ hfollows.le
      · obtain ⟨opts', hk', hby'⟩ := mem_asked_singleton.mp hasked
        cases hk.symm.trans hk'
        cases Except.ok.inj (hby.symm.trans hby')
        exact Int.le_of_eq (congrArg HardforkName.orderIndex hnow.symm)

theorem LatestOf.trans {first mid last : HardforkName} {asks asks' : List HardforkName}
    (h : LatestOf first asks mid) (h' : LatestOf mid asks' last) :
    LatestOf first (asks ++ asks') last := by
  constructor
  · rcases mem_cons.mp h'.mem with hmid | hmem
    · exact hmid ▸ mem_append_left asks' h.mem
    · exact mem_cons_of_mem first (mem_append_right asks hmem)
  · intro hf hmem
    rcases mem_append.mp (show hf ∈ (first :: asks) ++ asks' from hmem) with hl | hr
    · exact Int.le_trans (h.upper hf hl) (h'.upper mid mem_cons_self)
    · exact h'.upper hf (mem_cons_of_mem mid hr)

theorem run_hardforks (c : GlobalConfig α) (calls : List (Call α)) :
    (c.run calls).hardforks = c.hardforks := by
  induction calls generalizing c with
  | nil => rfl
  | cons k ks ih => exact (ih (c.call k)).trans (call_hardforks c k)

theorem run_latest (c : GlobalConfig α) (calls : List (Call α)) :
    LatestOf c.hardfork (asked c.hardforks calls) (c.run calls).hardfork := by
  induction calls generalizing c with
  | nil => exact ⟨mem_cons_self, fun h hmem => by simp_all [asked, run]⟩
  | cons k ks ih =>
    have hrest := ih (c.call k)
    rw [call_hardforks] at hrest
    exact asked_cons c.hardforks k ks ▸ (call_latest c k).trans hrest

/-! ## Parameters over a run -/

section
variable (getRawParam : Nat → String → Option α)

variable {name : String}

theorem leavesParam_call {c : GlobalConfig α} {k : Call α} (h : LeavesParam name c k) :
    (c.call k).getParam getRawParam name = c.getParam getRawParam name := by
  cases k with
  | setHardforkBy opts =>
    obtain ⟨failure, hfail⟩ := h
    simp only [call, hfail]
  | updateParams overrides =>
    have hget : overrides.get name = none := h
    simp only [call, getParam, updateParams, HardforkParamManager.getParam,
      HardforkParamManager.updateParams_get, hget, Option.none_or]
    rfl

theorem untouched_run {c : GlobalConfig α} {calls : List (Call α)} (h : Untouched name c calls) :
    (c.run calls).getParam getRawParam name = c.getParam getRawParam name := by
  induction calls generalizing c with
  | nil => rfl
  | cons k ks ih => exact (ih h.2).trans (leavesParam_call getRawParam h.1)

theorem updateParams_getParam (c : GlobalConfig α) {overrides : OrderedMap String α} {value : α}
    (h : overrides.get name = some value) :
    (c.updateParams overrides).getParam getRawParam name = some value := by
  simp only [getParam, updateParams, HardforkParamManager.getParam,
    HardforkParamManager.updateParams_get, h, Option.some_or]

theorem switched_getParam (c : GlobalConfig α) (hf : HardforkName) (name : String) :
    (c.switched hf).getParam getRawParam name = eipParam getRawParam hf name := rfl

end

/-! ## Going back -/

/-- A chain that starts its second hardfork at block 10. -/
def twoHardforks : List HardforkTransitionConfig :=
  [⟨.known .Chainstart, some 0, none⟩, ⟨.known .Homestead, some 10, none⟩]

end GlobalConfig
end HardforkSelection
