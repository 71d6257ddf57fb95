import Splice.Proofs.Operators.Rows
import Mathlib
/-!
# Sums and the order of rows

A sum of integers is checked after every addition, so it depends on the running totals, and with them on the order of
the rows.  **The sum is the exact total if every running total fits into 64 bits, and fails otherwise** (`sum_eq`).

In any order the running totals lie between the losses and the gains, the totals of the negative values and of the
others.  If both of these fit, no order fails; if the total does not fit, all do; **in between it is the order that
decides** (`call_sum_order`).  With the gains first or with the losses first the sum fails then; it succeeds where a
total above zero is followed by a loss and one below zero by a gain, as long as there are any.
-/
namespace Splice.Aggregate

/-- Whether an integer fits into 64 bits. -/
def Fits (n : Int) : Prop := Int64.minValue.toInt ≤ n ∧ n ≤ Int64.maxValue.toInt

instance (n : Int) : Decidable (Fits n) := inferInstanceAs (Decidable (_ ∧ _))

/-- Whether every running total fits that `start` is the first of. -/
def TotalsFit (start : Int) (ns : List Int) : Prop := ∀ p ∈ ns.inits, Fits (start + p.sum)

instance (start : Int) (ns : List Int) : Decidable (TotalsFit start ns) := inferInstanceAs (Decidable (∀ _ ∈ _, _))

/-- What a value adds to a sum of integers; null adds nothing. -/
def amount : Value → Int
  | .int n => n.toInt
  | _ => 0

def gains (ns : List Int) : Int := (ns.filter (0 ≤ ·)).sum

def losses (ns : List Int) : Int := (ns.filter (· < 0)).sum

/-- The sum of integers that are added in this order. -/
def summed (ns : List Int) : Except Error Value :=
  if TotalsFit 0 ns then .ok (.int (.ofInt ns.sum)) else .error .sumOverflow

/-! ## Running totals -/

theorem fits_toInt (n : Int64) : Fits n.toInt := by
  have hlo := Int64.le_toInt n
  have hhi := Int64.toInt_lt n
  have hmin : Int64.minValue.toInt = -9223372036854775808 := rfl
  have hmax : Int64.maxValue.toInt = 9223372036854775807 := rfl
  unfold Fits
  omega

theorem totalsFit_nil {a : Int} : TotalsFit a [] ↔ Fits a := by simp [TotalsFit]

theorem totalsFit_cons {a n : Int} {ns : List Int} : TotalsFit a (n :: ns) ↔ Fits a ∧ TotalsFit (a + n) ns := by
  simp [TotalsFit, Int.add_assoc]

theorem TotalsFit.start {a : Int} {ns : List Int} (h : TotalsFit a ns) : Fits a := by
  simpa using h [] (by simp)

theorem TotalsFit.total {a : Int} {ns : List Int} (h : TotalsFit a ns) : Fits (a + ns.sum) :=
  h ns ((List.mem_inits ns ns).2 (List.prefix_refl ns))

theorem toInt_ofInt_of_fits {n : Int} (h : Fits n) : (Int64.ofInt n).toInt = n :=
  Integer.ofInt?_eq_some_iff.1 (if_pos h)

theorem plus_int (m n : Int64) : plus (.int m) (.int n) =
    if Fits (m.toInt + n.toInt) then .ok (.int (.ofInt (m.toInt + n.toInt))) else .error .sumOverflow := by
  by_cases h : Fits (m.toInt + n.toInt)
  · have hsum : Integer.ofInt? (m.toInt + n.toInt) = some (.ofInt (m.toInt + n.toInt)) := if_pos h
    simp only [plus, Integer.add?, hsum, if_pos h]
  · have hsum : Integer.ofInt? (m.toInt + n.toInt) = none := if_neg h
    simp only [plus, Integer.add?, hsum, if_neg h]

/-- Adding integers, nulls left out. -/
theorem foldlM_plus {values : List Value} (hvalues : ∀ v ∈ values, v = .null ∨ ∃ n, v = .int n) (a : Int64) :
    (values.filter (!·.isNull)).foldlM plus (.int a) =
      if TotalsFit a.toInt (values.map amount) then .ok (.int (.ofInt (a.toInt + (values.map amount).sum)))
      else .error .sumOverflow := by
  -- The induction carries the running total `a`, which fits by its type.
  induction values generalizing a with
  | nil =>
    have hfit : TotalsFit a.toInt ([].map amount) := totalsFit_nil.2 (fits_toInt a)
    rw [if_pos hfit]
    show Except.ok (Value.int a) = .ok (.int (.ofInt (a.toInt + 0)))
    rw [Int.add_zero, Int64.ofInt_toInt]
  | cons v vs ih =>
    have hvs : ∀ w ∈ vs, w = .null ∨ ∃ n, w = .int n := fun w hw => hvalues w (List.mem_cons_of_mem _ hw)
    have hfit : TotalsFit a.toInt ((v :: vs).map amount) ↔ TotalsFit (a.toInt + amount v) (vs.map amount) :=
      totalsFit_cons.trans (and_iff_right (fits_toInt a))
    have hsum : a.toInt + ((v :: vs).map amount).sum = a.toInt + amount v + (vs.map amount).sum :=
      (Int.add_assoc ..).symm
    simp only [hfit, hsum]
    obtain rfl | ⟨n, rfl⟩ := hvalues v (List.mem_cons_self ..)
    · simp only [amount, Int.add_zero]
      exact ih hvs a
    · show (plus (.int a) (.int n) >>= fun total => (vs.filter (!·.isNull)).foldlM plus total) = _
      rw [plus_int]
      by_cases hfits : Fits (a.toInt + n.toInt)
      · have hrest := ih hvs (.ofInt (a.toInt + n.toInt))
        rw [toInt_ofInt_of_fits hfits] at hrest
        rw [if_pos hfits]
        exact hrest
      · rw [if_neg hfits, if_neg fun h => hfits h.start]
        rfl

/-- **The sum of integers is their total if every running total fits, and fails otherwise.** -/
theorem sum_eq {values : List Value} (hvalues : ∀ v ∈ values, v = .null ∨ ∃ n, v = .int n) :
    sum (values.filter (!·.isNull)) = summed (values.map amount) := by
  unfold sum summed
  rw [foldlM_plus hvalues]
  simp only [Int64.toInt_zero, Int.zero_add]

/-! ## The order of addition -/

theorem gains_nonneg (ns : List Int) : 0 ≤ gains ns :=
  List.sum_nonneg fun _ hn => of_decide_eq_true (List.mem_filter.1 hn).2

theorem sum_nonpos {ns : List Int} (h : ∀ n ∈ ns, n ≤ 0) : ns.sum ≤ 0 := by
  simpa using List.sum_le_card_nsmul ns 0 h

theorem losses_nonpos (ns : List Int) : losses ns ≤ 0 :=
  sum_nonpos fun _ hn => Int.le_of_lt (of_decide_eq_true (List.mem_filter.1 hn).2)

theorem gains_add_losses (ns : List Int) : gains ns + losses ns = ns.sum := by
  induction ns with
  | nil => rfl
  | cons n ns ih =>
    unfold gains losses at ih ⊢
    by_cases hn : 0 ≤ n
    · simp [hn, Int.not_lt.2 hn, ← ih, Int.add_assoc]
    · simp [hn, Int.not_le.1 hn, ← ih, Int.add_left_comm]

theorem gains_append (p q : List Int) : gains (p ++ q) = gains p + gains q := by
  simp [gains]

theorem losses_append (p q : List Int) : losses (p ++ q) = losses p + losses q := by
  simp [losses]

/-- **The running totals of every order lie between the losses and the gains.** -/
theorem totalsFit_of_perm {ns ms : List Int} (h : ms.Perm ns) (hgains : Fits (gains ns)) (hlosses : Fits (losses ns)) :
    TotalsFit 0 ms := by
  intro p hp
  obtain ⟨q, rfl⟩ := (List.mem_inits p ms).1 hp
  have hg : gains ns = gains p + gains q := by
    rw [← gains_append]
    exact (h.symm.filter _).sum_eq
  have hl : losses ns = losses p + losses q := by
    rw [← losses_append]
    exact (h.symm.filter _).sum_eq
  have hsum := gains_add_losses p
  have := gains_nonneg p
  have := gains_nonneg q
  have := losses_nonpos p
  have := losses_nonpos q
  unfold Fits at *
  omega

/-- The values that `p` chooses may come first. -/
theorem exists_perm_filter (p : Int → Bool) (ns : List Int) :
    ∃ ms, ms.Perm ns ∧ (TotalsFit 0 ms → Fits (ns.filter p).sum) := by
  refine ⟨ns.filter p ++ ns.filter (!p ·), List.filter_append_perm p ns, fun h => ?_⟩
  simpa using h _ ((List.mem_inits _ _).2 (List.prefix_append _ _))

/-- From above zero some value leads down, or all that are left lead up to the total; likewise from below. -/
theorem exists_next {a : Int} {ns : List Int} (hne : ns ≠ []) (ha : Fits a) (hns : ∀ n ∈ ns, Fits n)
    (htotal : Fits (a + ns.sum)) : ∃ n ∈ ns, Fits (a + n) := by
  by_contra hnone
  have hnot : ∀ n ∈ ns, ¬Fits (a + n) := fun n hn hfit => hnone ⟨n, hn, hfit⟩
  obtain ⟨m, ms, rfl⟩ := List.exists_cons_of_ne_nil hne
  have hm := hnot m (List.mem_cons_self ..)
  rw [List.sum_cons] at htotal
  by_cases hup : 0 ≤ a
  · have hnonneg : ∀ n ∈ m :: ms, 0 ≤ n := by
      intro n hn
      have := hns n hn
      have := hnot n hn
      unfold Fits at *
      omega
    have := List.sum_nonneg fun n hn => hnonneg n (List.mem_cons_of_mem m hn)
    have := hnonneg m (List.mem_cons_self ..)
    unfold Fits at *
    omega
  · have hnonpos : ∀ n ∈ m :: ms, n ≤ 0 := by
      intro n hn
      have := hns n hn
      have := hnot n hn
      unfold Fits at *
      omega
    have := sum_nonpos fun n hn => hnonpos n (List.mem_cons_of_mem m hn)
    have := hnonpos m (List.mem_cons_self ..)
    unfold Fits at *
    omega

/-- **If the total fits, some order of addition succeeds.** -/
theorem exists_perm_totalsFit {a : Int} {ns : List Int} (ha : Fits a) (hns : ∀ n ∈ ns, Fits n)
    (htotal : Fits (a + ns.sum)) : ∃ ms, ms.Perm ns ∧ TotalsFit a ms := by
  by_cases hne : ns = []
  · subst hne
    exact ⟨[], .nil, totalsFit_nil.2 ha⟩
  · obtain ⟨n, hn, hfit⟩ := exists_next hne ha hns htotal
    have hperm := List.perm_cons_erase hn
    rw [hperm.sum_eq, List.sum_cons, ← Int.add_assoc] at htotal
    obtain ⟨ms, hms, hfits⟩ := exists_perm_totalsFit hfit (fun m hm => hns m (List.mem_of_mem_erase hm)) htotal
    exact ⟨n :: ms, (hms.cons n).trans hperm.symm, totalsFit_cons.2 ⟨ha, hfits⟩⟩
termination_by ns.length
decreasing_by
  rw [List.length_erase_of_mem hn]
  exact Nat.sub_lt (List.length_pos_of_mem hn) Nat.one_pos

theorem summed_eq_iff {ms ns : List Int} (h : ms.Perm ns) :
    summed ms = summed ns ↔ (TotalsFit 0 ms ↔ TotalsFit 0 ns) := by
  unfold summed
  rw [h.sum_eq]
  by_cases hms : TotalsFit 0 ms <;> by_cases hns : TotalsFit 0 ns <;> simp [hms, hns]

/-- **When the order of addition makes no difference.** -/
theorem summed_perm_iff {ns : List Int} (hns : ∀ n ∈ ns, Fits n) :
    (∀ ms, ms.Perm ns → summed ms = summed ns) ↔ ¬Fits ns.sum ∨ Fits (gains ns) ∧ Fits (losses ns) := by
  constructor
  · intro hsame
    by_cases htotal : Fits ns.sum
    · have hfit : ∀ ms, ms.Perm ns → (TotalsFit 0 ms ↔ TotalsFit 0 ns) :=
        fun ms hms => (summed_eq_iff hms).1 (hsame ms hms)
      obtain ⟨good, hgood, hfits⟩ := exists_perm_totalsFit (fits_toInt 0) hns (by simpa using htotal)
      have hall : ∀ ms, ms.Perm ns → TotalsFit 0 ms := fun ms hms => (hfit ms hms).2 ((hfit good hgood).1 hfits)
      obtain ⟨up, hup, hgains⟩ := exists_perm_filter (0 ≤ ·) ns
      obtain ⟨down, hdown, hlosses⟩ := exists_perm_filter (· < 0) ns
      exact .inr ⟨hgains (hall up hup), hlosses (hall down hdown)⟩
    · exact .inl htotal
  · intro h ms hms
    rw [summed_eq_iff hms]
    obtain htotal | ⟨hgains, hlosses⟩ := h
    · refine ⟨fun hfit => absurd ?_ htotal, fun hfit => absurd ?_ htotal⟩
      · simpa [hms.sum_eq] using hfit.total
      · simpa using hfit.total
    · exact ⟨fun _ => totalsFit_of_perm (.refl ns) hgains hlosses, fun _ => totalsFit_of_perm hms hgains hlosses⟩

theorem fits_amount (v : Value) : Fits (amount v) := by
  cases v with
  | int n => exact fits_toInt n
  | _ => exact fits_toInt 0

theorem exists_int_of_summed {ns : List Int} {v : Value} (h : summed ns = .ok v) :
    ∃ n, v = .int n ∧ n.toInt = ns.sum := by
  unfold summed at h
  split at h
  case isTrue hfit =>
    cases h
    exact ⟨_, rfl, toInt_ofInt_of_fits (by simpa using hfit.total)⟩
  case isFalse => cases h

end Splice.Aggregate

namespace Splice.Operators

open Aggregate Run

variable {σ : Type}

/-- **What the order of rows has to do with a sum of integers.** -/
theorem call_sum_order {ev : Expr → Eval σ Value} {I : EvalState σ → Prop} {f : Lambda} {g : Value → Value}
    {rows : List Value} (hg : Yields ev I f g rows) (hints : ∀ row ∈ rows, g row = .null ∨ ∃ n, g row = .int n) :
    (∀ receiver argument s s' order, order.Perm rows → Receives ev receiver argument s f order s' → I s' →
      (call ev .sum [receiver, argument]).outcome s =
        (summed (order.map (amount ∘ g))).mapError Halt.error) ∧
    (∀ (order : List Value) (v : Value), order.Perm rows → summed (order.map (amount ∘ g)) = .ok v →
      ∃ n, v = .int n ∧ n.toInt = (rows.map (amount ∘ g)).sum) ∧
    ((∀ order : List Value, order.Perm rows → summed (order.map (amount ∘ g)) = summed (rows.map (amount ∘ g))) ↔
      ¬Fits (rows.map (amount ∘ g)).sum ∨
        Fits (gains (rows.map (amount ∘ g))) ∧ Fits (losses (rows.map (amount ∘ g)))) := by
  refine ⟨?_, ?_, ?_⟩
  · intro receiver argument s s' order hperm hreceives hs'
    obtain ⟨s'', hvalues, -⟩ := mapRows_of_yields (hg.of_perm hperm) hs'
    have hmapped : ∀ v ∈ order.map g, v = .null ∨ ∃ n, v = .int n := by
      intro v hv
      obtain ⟨row, hrow, rfl⟩ := List.mem_map.1 hv
      exact hints row (hperm.mem_iff.1 hrow)
    unfold outcome
    rw [hreceives.call_sum_eq hvalues, sum_eq hmapped, List.map_map]
    cases summed (order.map (amount ∘ g)) <;> rfl
  · intro order v hperm hv
    obtain ⟨n, rfl, hn⟩ := exists_int_of_summed hv
    exact ⟨n, rfl, hn.trans (hperm.map _).sum_eq⟩
  · rw [← summed_perm_iff]
    · constructor
      · intro h ms hms
        obtain ⟨order, rfl, horder⟩ := (iff_of_eq (congrFun₂ (List.eq_map_comp_perm _) ms rows)).2 hms
        exact h order horder
      · exact fun h order horder => h _ (horder.map _)
    · intro n hn
      obtain ⟨row, -, rfl⟩ := List.mem_map.1 hn
      exact fits_amount _

/-! Rows that are the integers themselves. -/

def largeFirst : List Value := [.int 9223372036854775807, .int 1, .int (-1)]

def largeLast : List Value := [.int 1, .int (-1), .int 9223372036854775807]

theorem largeLast_perm : largeLast.Perm largeFirst :=
  List.perm_append_singleton (Value.int 9223372036854775807) [Value.int 1, Value.int (-1)]

def sumOf (rows : List Value) : Eval Unit Value :=
  call listing.evaluate .sum [written rows, .lambda [row] (.param row)]

theorem call_sum_order_largeLast :
    Yields listing.evaluate (· = { hostState := () }) ⟨[row], .param row⟩ id largeFirst ∧
      (∀ row ∈ largeFirst, id row = .null ∨ ∃ n, id row = .int n) ∧
      (sumOf largeLast).outcome { hostState := () } = .ok (.int 9223372036854775807) := by
  have hints : ∀ row ∈ largeFirst, id row = .null ∨ ∃ n, id row = .int n := by
    simp [largeFirst]
  exact ⟨yields_row largeFirst, hints,
    (call_sum_order (yields_row largeFirst) hints).1 _ _ _ _ _ largeLast_perm (receives_written largeLast) rfl⟩

/-- One list of rows, in two orders. -/
theorem sum_depends_on_order :
    largeLast.Perm largeFirst ∧
      (sumOf largeLast).outcome { hostState := () } = .ok (.int 9223372036854775807) ∧
      (sumOf largeFirst).outcome { hostState := () } = .error (.error .sumOverflow) :=
  ⟨largeLast_perm, rfl, rfl⟩

end Splice.Operators
