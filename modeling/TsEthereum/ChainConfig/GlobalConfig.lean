-- SUMMARY: Hardforks, the EIPs that they activate, and the configuration that the EVM reads.
import Mathlib.Data.List.Basic

/-!
# Chain configuration

What `chain-config` says of the active hardfork. A chain that lists all the
hardforks of `HARDFORK_ORDER` is meant, and a parameter that is asked for is there.
-/

inductive Hardfork where
  | Chainstart | Homestead | Dao | TangerineWhistle | SpuriousDragon | Byzantium
  | Constantinople | Petersburg | Istanbul | MuirGlacier | Berlin | London | ArrowGlacier
  | GrayGlacier | MergeNetsplitBlock | Paris | Shanghai | Cancun | Prague | Osaka
  | Bpo1 | Bpo2 | Bpo3 | Bpo4 | Bpo5
  deriving DecidableEq, Repr

namespace Hardfork

/-- The position in `HARDFORK_ORDER`. -/
def index : Hardfork → Nat
  | Chainstart => 0 | Homestead => 1 | Dao => 2 | TangerineWhistle => 3 | SpuriousDragon => 4
  | Byzantium => 5 | Constantinople => 6 | Petersburg => 7 | Istanbul => 8 | MuirGlacier => 9
  | Berlin => 10 | London => 11 | ArrowGlacier => 12 | GrayGlacier => 13
  | MergeNetsplitBlock => 14 | Paris => 15 | Shanghai => 16 | Cancun => 17 | Prague => 18
  | Osaka => 19 | Bpo1 => 20 | Bpo2 => 21 | Bpo3 => 22 | Bpo4 => 23 | Bpo5 => 24

/-- Nothing comes before the first hardfork but itself. -/
theorem eq_chainstart {h : Hardfork} (hlt : h.index < Homestead.index) : h = Chainstart := by
  cases h <;> simp [index] at hlt ⊢

/-- `hardforksDict[hf].eips`. -/
def eips : Hardfork → List Nat
  | Chainstart => [1] | Homestead => [606] | Dao => [] | TangerineWhistle => [608]
  | SpuriousDragon => [607] | Byzantium => [609] | Constantinople => [1013] | Petersburg => [1716]
  | Istanbul => [1679] | MuirGlacier => [2384] | Berlin => [2565, 2929, 2718, 2930]
  | London => [1559, 3198, 3529, 3541] | ArrowGlacier => [4345] | GrayGlacier => [5133]
  | MergeNetsplitBlock => [] | Paris => [3675, 4399] | Shanghai => [3651, 3855, 3860, 4895]
  | Cancun => [1153, 4844, 4788, 5656, 6780, 7516]
  | Prague => [2537, 2935, 6110, 7002, 7251, 7623, 7685, 7691, 7702]
  | Osaka => [7594, 7823, 7825, 7883, 7939, 7951, 7918]
  | Bpo1 | Bpo2 | Bpo3 | Bpo4 | Bpo5 => []

end Hardfork

def HARDFORK_ORDER : List Hardfork :=
  [.Chainstart, .Homestead, .Dao, .TangerineWhistle, .SpuriousDragon, .Byzantium, .Constantinople,
    .Petersburg, .Istanbul, .MuirGlacier, .Berlin, .London, .ArrowGlacier, .GrayGlacier,
    .MergeNetsplitBlock, .Paris, .Shanghai, .Cancun, .Prague, .Osaka, .Bpo1, .Bpo2, .Bpo3, .Bpo4,
    .Bpo5]

structure GlobalConfig where
  currentHardfork : Hardfork
  /-- `param(name)`. -/
  param : String → Int
  /-- `consensusType()` is proof of work, authority or stake. -/
  isProofOfWork : Bool
  isProofOfAuthority : Bool
  chainId : Int

namespace GlobalConfig

def hardfork (c : GlobalConfig) : Hardfork := c.currentHardfork

def gteHardfork (c : GlobalConfig) (hardfork : Hardfork) : Bool :=
  hardfork.index ≤ c.currentHardfork.index

def isActivatedEIP (c : GlobalConfig) (eip : Nat) : Bool :=
  HARDFORK_ORDER.any fun hf => c.gteHardfork hf && hf.eips.contains eip

theorem hardfork_of_not_homestead {c : GlobalConfig} (h : c.gteHardfork .Homestead = false) :
    c.hardfork = .Chainstart := by
  simp only [gteHardfork, decide_eq_false_iff_not] at h
  exact Hardfork.eq_chainstart (Nat.lt_of_not_le h)

end GlobalConfig
