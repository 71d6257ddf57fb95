import Splice.Proofs.Operators.OrderBy
/-!
# Extremes and sorted rows

A minimum or maximum goes through the keys once and keeps the best one so far; a sort puts the rows in order.  **The
minimum is the first key in that order that is not null, and the maximum is the last one** (`call_extremes`), if all
keys but null are of one kind.

Both can be said without the order of the rows: no key is below the minimum, and none is above the maximum.  Of two
keys of one kind that are not the same one is below the other, so there is one such key, and the rows may come in any
order.
-/
namespace Splice

namespace Aggregate

variable {wanted : Ordering} {beats : Value → Value → Prop} {values : List Value}

/-- Any two of the values can be compared, with the wanted outcome where the first one beats the second one; one of two
different values beats the other one. -/
def Contest (wanted : Ordering) (beats : Value → Value → Prop) (values : List Value) : Prop :=
  ∀ a ∈ values, ∀ b ∈ values, ∃ o, Scalar.order a b = .ok o ∧ (o = wanted ↔ beats a b) ∧ (a = b ∨ beats a b ∨ beats b a)

theorem better_of_order {a best : Value} {o : Ordering} (h : Scalar.order a best = .ok o) :
    better wanted best a = .ok (if o = wanted then a else best) := by
  unfold better
  rw [h]
  show (if (o == wanted) = true then pure a else pure best) = _
  by_cases ho : o = wanted <;> simp [ho] <;> rfl

section

variable (hirrefl : ∀ a, ¬beats a a) (htrans : ∀ a b c, beats a b → beats b c → beats a c)
include hirrefl htrans

/-- The value that is kept is not beaten by those that were seen. -/
theorem foldlM_better {best : Value} (h : Contest wanted beats (best :: values)) :
    ∃ b ∈ best :: values, values.foldlM (better wanted) best = .ok b ∧ ∀ a ∈ best :: values, ¬beats a b := by
  induction values generalizing best with
  | nil =>
    refine ⟨best, List.mem_cons_self, rfl, fun a ha => ?_⟩
    obtain rfl := List.mem_singleton.1 ha
    exact hirrefl a
  | cons v values ih =>
    have hv : v ∈ best :: v :: values := List.mem_cons_of_mem _ List.mem_cons_self
    obtain ⟨o, ho, hwanted, -⟩ := h v hv best List.mem_cons_self
    have hfold : (v :: values).foldlM (better wanted) best =
        values.foldlM (better wanted) (if o = wanted then v else best) := by
      rw [List.foldlM_cons, better_of_order ho]
      rfl
    rw [hfold]
    by_cases hbeats : beats v best
    · rw [if_pos (hwanted.2 hbeats)]
      obtain ⟨b, hb, hfold, hbest⟩ := ih fun a ha b hb => h a (List.mem_cons_of_mem _ ha) b (List.mem_cons_of_mem _ hb)
      refine ⟨b, List.mem_cons_of_mem _ hb, hfold, List.forall_mem_cons.2 ⟨fun hlost => ?_, hbest⟩⟩
      exact hbest v List.mem_cons_self (htrans v best b hbeats hlost)
    · rw [if_neg (mt hwanted.1 hbeats)]
      have hsub : ∀ a ∈ best :: values, a ∈ best :: v :: values :=
        List.cons_subset_cons best (List.subset_cons_self v values)
      obtain ⟨b, hb, hfold, hbest⟩ := ih fun a ha b hb => h a (hsub a ha) b (hsub b hb)
      refine ⟨b, hsub b hb, hfold, List.forall_mem_cons.2 ⟨hbest best List.mem_cons_self, ?_⟩⟩
      refine List.forall_mem_cons.2 ⟨fun hlost => ?_, fun a ha => hbest a (List.mem_cons_of_mem _ ha)⟩
      -- What beats the value that is kept beats the one that was kept before it.
      obtain ⟨-, -, -, rfl | hafter | hbefore⟩ := h b (hsub b hb) best List.mem_cons_self
      · exact hbeats hlost
      · exact hbeats (htrans v b best hlost hafter)
      · exact hbest best List.mem_cons_self hbefore

/-- **An extreme is a value that no other one beats.** -/
theorem extreme_spec (h : Contest wanted beats values) (hne : values ≠ []) :
    ∃ b ∈ values, extreme wanted values = .ok b ∧ ∀ a ∈ values, ¬beats a b := by
  cases values with
  | nil => exact absurd rfl hne
  | cons v vs => exact foldlM_better hirrefl htrans h

end

/-! ## Keys in order -/

/-- Keys in their natural order, equal ones side by side. -/
def Ordered (keys : List Value) : Prop := keys.Pairwise fun a b => a.Below b ∨ a = b

variable {keys : List Value}

theorem contest_of_keys (hkeys : ∀ v ∈ keys, v.isKey = true) (hone : ∀ a ∈ keys, ∀ b ∈ keys, a.Comparable b) :
    Contest .lt Value.Below (keys.filter (!·.isNull)) ∧
      Contest .gt (fun a b => b.Below a) (keys.filter (!·.isNull)) := by
  have hcompared : ∀ a ∈ keys.filter (!·.isNull), ∀ b ∈ keys.filter (!·.isNull),
      ∃ o, Scalar.order a b = .ok o ∧ Scalar.Compared a b o := by
    intro a ha b hb
    rw [List.mem_filter, Bool.not_eq_true'] at ha hb
    obtain ⟨o, ho⟩ := Scalar.exists_keyOrder (hkeys a ha.1) (hone a ha.1 b hb.1)
    have hcompared := Scalar.compared_of_keyOrder (hkeys a ha.1) (hkeys b hb.1) ho
    rw [Scalar.keyOrder, ha.2, hb.2] at ho
    exact ⟨o, ho, hcompared⟩
  have hapart : ∀ {a b o}, Scalar.Compared a b o → a = b ∨ a.Below b ∨ b.Below a := by
    intro a b o h
    cases o with
    | lt => exact .inr (.inl (h.lt_iff.1 rfl))
    | eq => exact .inl (h.eq rfl)
    | gt => exact .inr (.inr (h.gt_iff.1 rfl))
  constructor
  · intro a ha b hb
    obtain ⟨o, ho, h⟩ := hcompared a ha b hb
    exact ⟨o, ho, h.lt_iff, hapart h⟩
  · intro a ha b hb
    obtain ⟨o, ho, h⟩ := hcompared a ha b hb
    exact ⟨o, ho, h.gt_iff, (hapart h).imp_right Or.symm⟩

/-- **The least key comes first**, nulls left out. -/
theorem extreme_lt_of_ordered (hordered : Ordered keys) (hperm : keys.Perm values)
    (h : Contest .lt Value.Below (values.filter (!·.isNull))) :
    extreme .lt (values.filter (!·.isNull)) = .ok ((keys.find? (!·.isNull)).getD .null) := by
  have hfilter := hperm.filter (!·.isNull)
  rw [← List.head?_filter]
  cases hfirst : keys.filter (!·.isNull) with
  | nil =>
    rw [hfirst] at hfilter
    rw [← hfilter.nil_eq]
    rfl
  | cons first rest =>
    have hne : values.filter (!·.isNull) ≠ [] := by
      intro hnil
      rw [hnil, hfirst] at hfilter
      cases hfilter.eq_nil
    obtain ⟨b, hb, hextreme, hbest⟩ := extreme_spec Value.Below.irrefl (fun _ _ _ => .trans) h hne
    have hpairwise : (first :: rest).Pairwise fun a b => a.Below b ∨ a = b := hfirst ▸ hordered.filter _
    have hmem : ∀ a, a ∈ values.filter (!·.isNull) ↔ a ∈ first :: rest := fun a => by
      rw [← hfirst, hfilter.mem_iff]
    rw [hextreme]
    obtain rfl | hrest := List.mem_cons.1 ((hmem b).1 hb)
    · rfl
    · obtain hbelow | rfl := List.rel_of_pairwise_cons hpairwise hrest
      · exact absurd hbelow (hbest first ((hmem first).2 List.mem_cons_self))
      · rfl

/-- **The greatest key comes last.** -/
theorem extreme_gt_of_ordered (hordered : Ordered keys) (hperm : keys.Perm values)
    (h : Contest .gt (fun a b => b.Below a) (values.filter (!·.isNull))) :
    extreme .gt (values.filter (!·.isNull)) = .ok (keys.getLast?.getD .null) := by
  obtain rfl | ⟨init, last, rfl⟩ := keys.eq_nil_or_concat
  · rw [← hperm.nil_eq]
    rfl
  rw [List.concat_eq_append] at hordered hperm ⊢
  rw [List.getLast?_concat, Option.getD_some]
  have hlast : last ∈ values := hperm.mem_iff.1 (by simp)
  by_cases hne : values.filter (!·.isNull) = []
  · have hnull := List.filter_eq_nil_iff.1 hne last hlast
    rw [hne]
    cases last with
    | null => rfl
    | _ => exact absurd rfl hnull
  · obtain ⟨b, hb, hextreme, hbest⟩ := @extreme_spec .gt (fun a b => b.Below a) _ Value.Below.irrefl
      (fun _ _ _ hba hcb => hcb.trans hba) h hne
    rw [hextreme]
    have hinit : b ∈ init ++ [last] := hperm.mem_iff.2 (List.mem_filter.1 hb).1
    obtain hinit | hb := List.mem_append.1 hinit
    · obtain hbelow | rfl := (List.pairwise_append.1 hordered).2.2 b hinit last List.mem_cons_self
      · refine absurd hbelow (hbest last (List.mem_filter.2 ⟨hlast, ?_⟩))
        rw [hbelow.isNull_right]
        rfl
      · rfl
    · rw [List.mem_singleton.1 hb]

theorem first_eq_null_iff : (keys.find? (!·.isNull)).getD .null = .null ↔ ∀ k ∈ keys, k = .null := by
  cases hfirst : keys.find? (!·.isNull) with
  | none => simpa [Value.isNull_iff] using hfirst
  | some k =>
    have hk : ¬k.isNull = true := by simpa using List.find?_some hfirst
    rw [Value.isNull_iff] at hk
    exact ⟨fun hnull => absurd hnull hk, fun hnull => absurd (hnull k (List.mem_of_find?_eq_some hfirst)) hk⟩

theorem Ordered.last_eq_null_iff (h : Ordered keys) : keys.getLast?.getD .null = .null ↔ ∀ k ∈ keys, k = .null := by
  obtain rfl | ⟨init, last, rfl⟩ := keys.eq_nil_or_concat
  · simp
  rw [List.concat_eq_append] at h ⊢
  rw [List.getLast?_concat, Option.getD_some]
  refine ⟨?_, fun hnull => hnull last (by simp)⟩
  rintro rfl k hk
  obtain hk | hk := List.mem_append.1 hk
  · obtain hbelow | rfl := (List.pairwise_append.1 h).2.2 k hk .null List.mem_cons_self
    · cases hbelow.isNull_right
    · rfl
  · exact List.mem_singleton.1 hk

theorem Ordered.unique {keys' : List Value} (h : Ordered keys) (h' : Ordered keys') (hperm : keys.Perm keys') :
    keys = keys' := by
  refine List.Perm.eq_of_pairwise ?_ h h' hperm
  rintro a b - - (hab | rfl) (hba | heq)
  · exact absurd hba hab.not_below
  · exact heq.symm
  · rfl
  · rfl

end Aggregate

namespace Operators

open Aggregate Run

variable {σ : Type}

/-- Rows with these keys. -/
def keyedBy (g : Value → Value) (rows : List Value) : List Sorting.Keyed := rows.map fun row => ⟨g row, row⟩

theorem mem_keyedBy {g : Value → Value} {rows : List Value} {r : Sorting.Keyed} (h : r ∈ keyedBy g rows) :
    r.row ∈ rows ∧ r.key = g r.row := by
  obtain ⟨row, hrow, rfl⟩ := List.mem_map.1 h
  exact ⟨hrow, rfl⟩

/-- Rows are sorted to rows whose keys are in order. -/
theorem sortRows_keyedBy {g : Value → Value} {rows : List Value} (hkeys : ∀ row ∈ rows, (g row).isKey = true)
    (hone : ∀ a ∈ rows, ∀ b ∈ rows, (g a).Comparable (g b)) :
    ∃ sorted, Sorting.sortRows (keyedBy g rows) = .ok sorted ∧ sorted.Perm rows ∧ Ordered (sorted.map g) := by
  have hisKey : ∀ r ∈ keyedBy g rows, r.key.isKey = true := fun r hr => by
    rw [(mem_keyedBy hr).2]
    exact hkeys _ (mem_keyedBy hr).1
  have honeKind : Sorting.OneKind (keyedBy g rows) := fun a ha b hb => by
    rw [(mem_keyedBy ha).2, (mem_keyedBy hb).2]
    exact hone _ (mem_keyedBy ha).1 _ (mem_keyedBy hb).1
  obtain ⟨order, hstable, hsort⟩ := Sorting.sortRows_of_oneKind hisKey honeKind Sorting.insertion
  rw [Sorting.insertion_sortRows] at hsort
  have hrows : (List.finRange _).map (fun i => ((keyedBy g rows).get i).row) = rows := by
    have hget := congrArg (List.map Sorting.Keyed.row) (List.map_get_finRange (keyedBy g rows))
    rw [List.map_map] at hget
    exact hget.trans (by simp [keyedBy, Function.comp_def])
  have hperm := hstable.perm.map fun i => ((keyedBy g rows).get i).row
  rw [hrows] at hperm
  refine ⟨_, hsort, hperm, ?_⟩
  rw [List.map_map]
  refine List.pairwise_map.2 (hstable.inOrder.imp fun {i j} hij => ?_)
  have hkey := fun i => (mem_keyedBy ((keyedBy g rows).get_mem i)).2
  rw [hkey, hkey] at hij
  exact hij.imp_right And.left

/-- The extremes of the keys are the ends of the rows that `orderBy` gives. -/
theorem Receives.call_ends {ev : Expr → Eval σ Value} {receiver argument : Expr} {s s' s'' : EvalState σ} {f : Lambda}
    {g : Value → Value} {rows : List Value} (h : Receives ev receiver argument s f rows s')
    (hvalues : mapRows ev f rows s' = .ok (rows.map g) s'') (hkeys : ∀ row ∈ rows, (g row).isKey = true)
    (hone : ∀ a ∈ rows, ∀ b ∈ rows, (g a).Comparable (g b)) :
    ∃ sorted, sorted.Perm rows ∧ Ordered (sorted.map g) ∧
      (call ev .orderBy [receiver, argument]).outcome s = .ok (.list sorted) ∧
      (call ev .min [receiver, argument]).outcome s = .ok (((sorted.map g).find? (!·.isNull)).getD .null) ∧
      (call ev .max [receiver, argument]).outcome s = .ok ((sorted.map g).getLast?.getD .null) := by
  obtain ⟨sorted, hsort, hsorted, hordered⟩ := sortRows_keyedBy hkeys hone
  obtain ⟨hless, hgreater⟩ := contest_of_keys (List.forall_mem_map.2 hkeys)
    (List.forall_mem_map.2 fun a ha => List.forall_mem_map.2 (hone a ha))
  have hkeyed : List.zipWith Sorting.Keyed.mk (rows.map g) rows = keyedBy g rows := by
    simp [keyedBy, List.zipWith_map_left, List.zipWith_self]
  refine ⟨sorted, hsorted, hordered, ?_, ?_, ?_⟩
  · unfold outcome
    rw [h.call_orderBy_eq hvalues, hkeyed, hsort]
    rfl
  · unfold outcome
    rw [h.call_aggregate_eq hvalues rfl, extreme_lt_of_ordered hordered (hsorted.map g) hless]
    rfl
  · unfold outcome
    rw [h.call_aggregate_eq hvalues rfl, extreme_gt_of_ordered hordered (hsorted.map g) hgreater]
    rfl

/-- **The extremes are the ends of the sorted rows.**  Whatever order the rows come in, the minimum is the key of the
first row with a key in the order of their keys, and the maximum is that of the last one. -/
theorem call_extremes {ev : Expr → Eval σ Value} {I : EvalState σ → Prop} {f : Lambda} {g : Value → Value}
    {rows : List Value} (hg : Yields ev I f g rows) (hkeys : ∀ row ∈ rows, (g row).isKey = true)
    (hone : ∀ a ∈ rows, ∀ b ∈ rows, (g a).Comparable (g b)) :
    ∃ least greatest : Value,
      (∀ receiver argument s s' order, order.Perm rows → Receives ev receiver argument s f order s' → I s' →
        ∃ sorted, sorted.Perm order ∧ (call ev .orderBy [receiver, argument]).outcome s = .ok (.list sorted) ∧
          (call ev .min [receiver, argument]).outcome s = .ok least ∧
          least = ((sorted.find? fun row => !(g row).isNull).map g).getD .null ∧
          (call ev .max [receiver, argument]).outcome s = .ok greatest ∧
          greatest = (sorted.getLast?.map g).getD .null) ∧
      (least = .null ↔ ∀ row ∈ rows, g row = .null) ∧ (greatest = .null ↔ ∀ row ∈ rows, g row = .null) := by
  obtain ⟨first, -, hfirst, hordered⟩ := sortRows_keyedBy hkeys hone
  refine ⟨((first.map g).find? (!·.isNull)).getD .null, (first.map g).getLast?.getD .null, ?_, ?_, ?_⟩
  · intro receiver argument s s' order hperm hreceives hs'
    have hmem : ∀ row, row ∈ order → row ∈ rows := fun row => hperm.mem_iff.1
    obtain ⟨s'', hvalues, -⟩ := mapRows_of_yields (hg.of_perm hperm) hs'
    obtain ⟨sorted, hsorted, hordered', horderBy, hmin, hmax⟩ := hreceives.call_ends hvalues
      (fun row h => hkeys row (hmem row h)) fun a ha b hb => hone a (hmem a ha) b (hmem b hb)
    -- The keys in order are the same for every order of the rows.
    have hsame : first.map g = sorted.map g :=
      hordered.unique hordered' ((hfirst.trans (hsorted.trans hperm).symm).map g)
    rw [← hsame] at hmin hmax
    refine ⟨sorted, hsorted, horderBy, hmin, ?_, hmax, ?_⟩
    · rw [hsame, List.find?_map]
      rfl
    · rw [hsame, List.getLast?_map]
  · rw [first_eq_null_iff, List.forall_mem_map]
    exact forall_congr' fun row => imp_congr_left hfirst.mem_iff
  · rw [hordered.last_eq_null_iff, List.forall_mem_map]
    exact forall_congr' fun row => imp_congr_left hfirst.mem_iff

/-! Rows whose keys are the rows with their sign turned. -/

def negation : Lambda := ⟨[row], .unary .negate (.param row)⟩

def negated : Value → Value
  | .int n => .int (-n)
  | v => v

/-- A null stands between two integers. -/
theorem call_extremes_negated :
    Yields listing.evaluate (· = { hostState := () }) negation negated [.int 2, .null, .int 1] ∧
    (∀ v ∈ [Value.int 2, .null, .int 1], (negated v).isKey = true) ∧
    (∀ a ∈ [Value.int 2, .null, .int 1], ∀ b ∈ [Value.int 2, .null, .int 1], (negated a).Comparable (negated b)) ∧
    ∃ least, least ≠ .null ∧ ∀ order, order.Perm [.int 2, .null, .int 1] →
      (call listing.evaluate .min [written order, .ofLambda negation]).outcome { hostState := () } = .ok least := by
  have hyields : Yields listing.evaluate (· = { hostState := () }) negation negated [.int 2, .null, .int 1] :=
    yields_of_outcome (fun _ _ _ => rfl) (by simp only [List.forall_mem_cons]; exact ⟨rfl, rfl, rfl, nofun⟩)
  have hkeys : ∀ v ∈ [Value.int 2, .null, .int 1], (negated v).isKey = true := by
    simp [negated, Value.isKey]
  have hone : ∀ a ∈ [Value.int 2, .null, .int 1], ∀ b ∈ [Value.int 2, .null, .int 1],
      (negated a).Comparable (negated b) := by
    simp [negated, Value.Comparable, Value.kind?, Value.isNull]
  obtain ⟨least, _, hcall, hnull, -⟩ := call_extremes hyields hkeys hone
  refine ⟨hyields, hkeys, hone, least, fun h => ?_, fun order hperm => ?_⟩
  · simpa [negated] using hnull.1 h (.int 2)
  · obtain ⟨_, -, -, hmin, -⟩ :=
      hcall (written order) (.ofLambda negation) _ _ order hperm ⟨_, _, rfl, rfl, .inl rfl⟩ rfl
    exact hmin

end Operators

end Splice
