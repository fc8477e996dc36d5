-- SUMMARY: The refund counter of a transaction, and that no SSTORE exhausts it.
import TsEthereum.Base.Coverage
import TsEthereum.Evm.SstoreGas

/-!
# Refunds

A slot that held a value before the transaction and is zero now has been cleared,
and owes the refund that it was cleared for. The counter of every frame covers what
the slots owe in its state. A frame that fails takes back its state together with
its counter.
-/

open Program Coverage

/-! ## The debt of a slot -/

/-- What a slot of this original value owes. -/
def owed (clearRefund : Int) (original current : Bytes) : Int :=
  if original ≠ [] ∧ current = [] then clearRefund else 0

/-- The refund for clearing a slot, where the rule takes it back. -/
def clearRefund (common : GlobalConfig) : Int :=
  if common.hardfork = .Constantinople then common.param "netSstoreClearRefundGas"
  else if common.gteHardfork .Istanbul then common.param "sstoreClearRefundEIP2200Gas"
  else 0

/-- Refunds are not negative, nor are they with the reductions for warm slots. -/
structure RefundParams (common : GlobalConfig) : Prop where
  netSstoreClearRefund : 0 ≤ common.param "netSstoreClearRefundGas"
  netSstoreResetClearRefund : 0 ≤ common.param "netSstoreResetClearRefundGas"
  netSstoreResetRefund : 0 ≤ common.param "netSstoreResetRefundGas"
  sstoreClearRefundEIP2200 : 0 ≤ common.param "sstoreClearRefundEIP2200Gas"
  sstoreInitRefundEIP2200 : 0 ≤ common.param "sstoreInitRefundEIP2200Gas"
  sstoreCleanRefundEIP2200 : 0 ≤ common.param "sstoreCleanRefundEIP2200Gas"
  warmInit : common.param "warmstoragereadGas" ≤ common.param "sstoreInitEIP2200Gas"
  warmClean :
    common.param "coldsloadGas" + common.param "warmstoragereadGas" ≤ common.param "sstoreResetGas"
  sstoreRefund : 0 ≤ common.param "sstoreRefundGas"
  selfdestructRefund : 0 ≤ common.param "selfdestructRefundGas"

section Rules

variable {common : GlobalConfig} {clear g : Int} {original current value : Bytes}

theorem owed_nonneg (hclear : 0 ≤ clear) (original current : Bytes) :
    0 ≤ owed clear original current := by
  unfold owed
  split
  · exact hclear
  · exact le_rfl

theorem owed_self (clear : Int) (value : Bytes) : owed clear value value = 0 :=
  if_neg fun h => h.1 h.2

theorem owed_of_nil (clear : Int) (current : Bytes) : owed clear [] current = 0 :=
  if_neg fun h => h.1 rfl

theorem owed_of_ne_nil (clear : Int) (original : Bytes) (h : current ≠ []) :
    owed clear original current = 0 :=
  if_neg fun h' => h h'.2

theorem owed_cleared (clear : Int) (h : original ≠ []) : owed clear original [] = clear :=
  if_pos ⟨h, rfl⟩

theorem clearRefund_nonneg (hparams : RefundParams common) : 0 ≤ clearRefund common := by
  unfold clearRefund
  split_ifs
  · exact hparams.netSstoreClearRefund
  · exact hparams.sstoreClearRefundEIP2200
  · exact le_rfl

/-- What is owed can be taken back. -/
theorem subRefund_spec {amount : Int} (h : amount ≤ g) :
    (subRefund amount).wp (fun _ g' => g' = g - amount) (fun _ _ => False) g := by
  simp only [subRefund, wp_bind, wp_modify, wp_get]
  exact wp_when (fun hneg => absurd hneg (not_lt.mpr (sub_nonneg.mpr h))) (fun _ => rfl)

/-- The clauses on cleared slots move the counter by the change of the debt. -/
theorem refundCleared_spec (hne : current ≠ value) (h : owed clear original current ≤ g) :
    (refundCleared clear current original value).wp
      (fun _ g' => g' = g - owed clear original current + owed clear original value)
      (fun _ _ => False) g := by
  refine wp_when (fun horiginal => wp_ite (fun hcurrent => ?_) (fun hcurrent => ?_)) (fun hnil => ?_)
  · obtain rfl := hcurrent
    have hvalue : owed clear original value = 0 := owed_of_ne_nil clear original (Ne.symm hne)
    rw [owed_cleared clear horiginal] at h ⊢
    rw [hvalue, add_zero]
    exact subRefund_spec h
  · rw [owed_of_ne_nil clear original hcurrent, sub_zero]
    refine wp_when (fun hvalue => ?_) (fun hvalue => ?_)
    · obtain rfl := hvalue
      rw [owed_cleared clear horiginal]
      exact rfl
    · rw [owed_of_ne_nil clear original hvalue, add_zero]
  · obtain rfl : original = [] := not_not.mp hnil
    rw [owed_of_nil, owed_of_nil, sub_zero, add_zero]

theorem refundReset_spec {initRefund cleanRefund : Int} (hinit : 0 ≤ initRefund)
    (hclean : 0 ≤ cleanRefund) :
    (refundReset initRefund cleanRefund original value).wp (fun _ g' => g ≤ g') (fun _ _ => False)
      g := by
  refine wp_when (fun _ => wp_ite (fun _ => ?_) (fun _ => ?_)) (fun _ => le_rfl)
  · exact (wp_modify _).mpr (le_add_of_nonneg_right hinit)
  · exact (wp_modify _).mpr (le_add_of_nonneg_right hclean)

/-- The counter follows the debt of the slot, and taking back does not exhaust it. -/
abbrev Follows (clear : Int) (original current value : Bytes) (g : Int) (p : Refunding Int) : Prop :=
  p.wp (fun _ g' => g - owed clear original current + owed clear original value ≤ g')
    (fun e _ => e ≠ .REFUND_EXHAUSTED) g

theorem follows_noop (cost : Int) (h : current = value) :
    Follows clear original current value g (pure cost) := by
  obtain rfl := h
  exact (sub_add_cancel g _).le

/-- A slot that still has its original value. -/
theorem follows_clean (init clean : Int) (h : original = current) :
    Follows clear original current value g
      (if original = [] then pure init else do
        .when (value = []) (refundGas clear)
        pure clean) := by
  obtain rfl := h
  unfold Follows
  rw [owed_self, sub_zero]
  refine wp_ite (fun hnil => ?_) (fun hne => ?_)
  · obtain rfl := hnil
    rw [owed_of_nil, add_zero]
    exact le_rfl
  · simp only [wp_bind, wp_pure]
    refine wp_when (fun hvalue => ?_) (fun hvalue => ?_)
    · obtain rfl := hvalue
      rw [owed_cleared clear hne]
      exact le_rfl
    · rw [owed_of_ne_nil clear original hvalue, add_zero]

/-- A slot that has another value already. -/
theorem follows_dirty {initRefund cleanRefund : Int} (dirty : Int) (hinit : 0 ≤ initRefund)
    (hclean : 0 ≤ cleanRefund) (hne : current ≠ value) (h : owed clear original current ≤ g) :
    Follows clear original current value g (do
      refundCleared clear current original value
      refundReset initRefund cleanRefund original value
      pure dirty) := by
  simp only [Follows, wp_bind, wp_pure]
  refine wp_mono (refundCleared_spec hne h) (fun _ g₁ hg₁ => ?_) (fun _ _ h => h.elim)
  refine wp_mono (refundReset_spec hinit hclean) (fun _ g₂ hg₂ => ?_) (fun _ _ h => h.elim)
  exact hg₁.ge.trans hg₂

theorem adjust_nonneg (hparams : RefundParams common) (warm : Bool) :
    0 ≤ adjustSstoreGasEIP2929 common warm (common.param "sstoreInitRefundEIP2200Gas") .initRefund ∧
      0 ≤ adjustSstoreGasEIP2929 common warm (common.param "sstoreCleanRefundEIP2200Gas")
        .cleanRefund := by
  unfold adjustSstoreGasEIP2929
  split_ifs
  · refine ⟨sub_nonneg.mpr hparams.warmInit, ?_⟩
    rw [sub_sub]
    exact sub_nonneg.mpr hparams.warmClean
  · exact ⟨hparams.sstoreInitRefundEIP2200, hparams.sstoreCleanRefundEIP2200⟩

theorem updateSstoreGasEIP1283_spec (hparams : RefundParams common)
    (h : owed (common.param "netSstoreClearRefundGas") original current ≤ g) :
    Follows (common.param "netSstoreClearRefundGas") original current value g
      (updateSstoreGasEIP1283 common current original value) := by
  refine wp_ite (follows_noop _) (fun hne => wp_ite (fun hclean => ?_) (fun _ => ?_))
  · exact follows_clean _ _ hclean
  · exact follows_dirty _ hparams.netSstoreResetClearRefund hparams.netSstoreResetRefund hne h

theorem updateSstoreGasEIP2200_spec (hparams : RefundParams common) (gasLeft : Int) (warm : Bool)
    (h : owed (common.param "sstoreClearRefundEIP2200Gas") original current ≤ g) :
    Follows (common.param "sstoreClearRefundEIP2200Gas") original current value g
      (updateSstoreGasEIP2200 common gasLeft warm current original value) := by
  obtain ⟨hinit, hclean⟩ := adjust_nonneg hparams warm
  refine wp_ite (fun _ => (wp_throw _).mpr nofun) (fun _ => ?_)
  refine wp_ite (follows_noop _) (fun hne => wp_ite (fun hsame => ?_) (fun _ => ?_))
  · exact follows_clean _ _ hsame
  · exact follows_dirty _ hinit hclean hne h

/-- The rule without taking back. -/
theorem updateSstoreGas_spec (hparams : RefundParams common) :
    Follows 0 original current value g (updateSstoreGas common current value) := by
  have howed (current : Bytes) : owed 0 original current = 0 := ite_self 0
  unfold Follows
  rw [howed, howed, sub_zero, add_zero]
  refine wp_ite (fun _ => le_rfl) (fun _ => wp_ite (fun _ => ?_) (fun _ => le_rfl))
  exact le_add_of_nonneg_right hparams.sstoreRefund

/-- What one SSTORE does to the counter. -/
theorem sstoreGas_spec (hparams : RefundParams common) (gas gasLeft : Int) (warm : Bool)
    (h : owed (clearRefund common) (setLengthLeftStorage original) (setLengthLeftStorage current) ≤ g) :
    Follows (clearRefund common) (setLengthLeftStorage original) (setLengthLeftStorage current)
      (setLengthLeftStorage value) g (sstoreGas common gas gasLeft warm current original value) := by
  unfold Follows sstoreGas
  unfold clearRefund at h ⊢
  split_ifs at h ⊢
  · exact (wp_bind _ _).mpr (updateSstoreGasEIP1283_spec hparams h)
  · exact (wp_bind _ _).mpr (updateSstoreGasEIP2200_spec hparams gasLeft warm h)
  · exact (wp_bind _ _).mpr (updateSstoreGas_spec hparams)

end Rules
