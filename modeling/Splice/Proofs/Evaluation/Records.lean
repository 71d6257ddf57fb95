import Splice.Proofs.Evaluation.Sessions
import Splice.Proofs.Evaluation.Substituted
import Mathlib.Data.List.Induction
/-!
# Records in the order of assignment

A record is what a sequence of assignments makes of an empty one.  **Its names are those that were assigned, each of
them once, in the order of the first assignments; its values are those of the last ones**
(`Record.assignments_ordered`).  An assignment to another name changes neither the value of a field nor its place.

A record that a tree constructs is the record of such a sequence: the fields are evaluated from left to right, the
first one that fails ends the construction, and otherwise the values are assigned in this order, also where a name is
repeated.
-/
namespace Splice

open Run

variable {σ : Type}

/-! ## One assignment -/

namespace Fields

variable {α : Type} {name other : String} {a b : α} {i : Nat}

theorem map_fst_set (name : String) (a : α) (fields : List (String × α)) :
    (set name a fields).map Prod.fst =
      if name ∈ fields.map Prod.fst then fields.map Prod.fst else fields.map Prod.fst ++ [name] := by
  induction fields with
  | nil => rfl
  | cons entry rest ih =>
    obtain ⟨n, b⟩ := entry
    by_cases hn : n = name
    · simp [set, hn]
    · simp only [set, if_neg hn, List.map_cons, ih, List.mem_cons, Ne.symm hn, false_or]
      split <;> rfl

/-- **The other fields stay as and where they are.** -/
theorem getElem?_set_of_ne (h : other ≠ name) (fields : List (String × α)) :
    (set name a fields)[i]? = some (other, b) ↔ fields[i]? = some (other, b) := by
  induction fields generalizing i with
  | nil => cases i <;> simp [set, Ne.symm h]
  | cons entry rest ih =>
    obtain ⟨n, c⟩ := entry
    by_cases hn : n = name
    · cases i <;> simp [set, hn, Ne.symm h]
    · cases i with
      | zero => simp [set, hn]
      | succ i => simpa [set, hn] using ih

end Fields

/-! ## Sequences of assignments -/

namespace Record

/-- The record after assignments, one after the other. -/
def assign (r : Record) (assignments : List (String × Value)) : Record :=
  assignments.foldl (fun r a => r.set a.1 a.2) r

def names (r : Record) : List String := r.fields.map Prod.fst

variable {r : Record} {name : String} {v : Value} {assignments : List (String × Value)}

theorem assign_concat (r : Record) (assignments : List (String × Value)) (name : String) (v : Value) :
    r.assign (assignments ++ [(name, v)]) = (r.assign assignments).set name v := List.foldl_append

theorem names_set (r : Record) (name : String) (v : Value) :
    (r.set name v).names = if name ∈ r.names then r.names else r.names ++ [name] := Fields.map_fst_set name v r.fields

theorem typeName_assign (r : Record) (assignments : List (String × Value)) :
    (r.assign assignments).typeName = r.typeName := by
  induction assignments generalizing r with
  | nil => rfl
  | cons a assignments ih => exact ih (r.set a.1 a.2)

variable {typeName : String}

theorem mem_names_assign : name ∈ (assign ⟨typeName, []⟩ assignments).names ↔ name ∈ assignments.map Prod.fst := by
  induction assignments using List.reverseRecOn with
  | nil => rfl
  | append_singleton assignments a ih =>
    rw [assign_concat, names_set, List.map_append, List.mem_append, ← ih]
    split
    case isTrue hmem =>
      refine ⟨.inl, fun h => h.elim id fun h => ?_⟩
      rwa [List.mem_singleton.1 h]
    case isFalse => rw [List.mem_append]; rfl

/-- **The names stand in the order of their first assignments.** -/
theorem pairwise_names_assign (typeName : String) (assignments : List (String × Value)) :
    (assign ⟨typeName, []⟩ assignments).names.Pairwise fun m n =>
      (assignments.map Prod.fst).idxOf m < (assignments.map Prod.fst).idxOf n := by
  induction assignments using List.reverseRecOn with
  | nil => exact .nil
  | append_singleton assignments a ih =>
    -- The first assignment of an old name stays where it is.
    have hold : ∀ n ∈ (assign ⟨typeName, []⟩ assignments).names,
        ((assignments ++ [a]).map Prod.fst).idxOf n = (assignments.map Prod.fst).idxOf n := fun n hn => by
      rw [List.map_append, List.idxOf_append, if_pos (mem_names_assign.1 hn)]
    have hpairs : (assign ⟨typeName, []⟩ assignments).names.Pairwise fun m n =>
        ((assignments ++ [a]).map Prod.fst).idxOf m < ((assignments ++ [a]).map Prod.fst).idxOf n :=
      ih.imp_of_mem fun hm hn hlt => by rwa [hold _ hm, hold _ hn]
    rw [assign_concat, names_set]
    split
    case isTrue => exact hpairs
    case isFalse hnew =>
      refine List.pairwise_append.2 ⟨hpairs, List.pairwise_singleton _ _, fun m hm n hn => ?_⟩
      rw [List.mem_singleton.1 hn, hold m hm, List.map_append, List.idxOf_append, if_neg (mem_names_assign.not.1 hnew)]
      exact Nat.lt_of_lt_of_le (List.idxOf_lt_length_iff.2 (mem_names_assign.1 hm)) (Nat.le_add_left _ _)

/-- **Reading gives the value that was assigned last.** -/
theorem get?_assign (typeName : String) (assignments : List (String × Value)) (name : String) :
    (assign ⟨typeName, []⟩ assignments).get? name = assignments.reverse.lookup name := by
  induction assignments using List.reverseRecOn with
  | nil => rfl
  | append_singleton assignments a ih =>
    rw [assign_concat, List.reverse_append, List.reverse_singleton, List.singleton_append, List.lookup_cons, ← ih]
    by_cases h : name = a.1
    · rw [h, beq_self_eq_true]
      exact Fields.get?_set_self a.1 a.2 _
    · rw [beq_false_of_ne h]
      exact Fields.get?_set_of_ne h a.2 _

end Record

/-! ## Construction -/

/-- The trees have these values one after the other; the host program comes from one state to the other. -/
inductive Env.AnswersInTurn (env : Env σ) (s : Scope) : List Expr → σ → List Value → σ → Prop
  | nil {h : σ} : AnswersInTurn env s [] h [] h
  | cons {e : Expr} {es : List Expr} {v : Value} {vs : List Value} {h k h' : σ} : env.Answers e s h (.ok v) k →
      AnswersInTurn env s es k vs h' → AnswersInTurn env s (e :: es) h (v :: vs) h'

namespace Env

open Evaluation

variable {env : Env σ} {s : Scope} {h h' k : σ} {r r' : Record} {before after fields : List (String × Expr)}
  {values : List Value} {n : Nat} {cause : Error} {st : EvalState σ}

/-- **Fields that have values are assigned them**, from some depth on. -/
theorem AnswersInTurn.evalFields (hvalues : env.AnswersInTurn s (before.map Prod.snd) h values k)
    (after : List (String × Expr)) : ∃ depth, ∀ n, depth ≤ n → ∀ r,
      evalFields (env.evaluateWithin n) r (before ++ after) ⟨s, h⟩ =
        evalFields (env.evaluateWithin n) (r.assign ((before.map Prod.fst).zip values)) after ⟨s, k⟩ := by
  induction before generalizing h values with
  | nil =>
    cases hvalues
    exact ⟨0, fun n _ r => rfl⟩
  | cons field before ih =>
    cases hvalues with
    | cons hv hvalues =>
      obtain ⟨depth, hdepth⟩ := hv
      obtain ⟨depth', hdepth'⟩ := ih hvalues
      refine ⟨max depth depth', fun n hn r => ?_⟩
      rw [List.cons_append, Evaluation.evalFields, bind_of_ok (hdepth n (by omega)), hdepth' n (by omega)]
      rfl

theorem answersInTurn_of_evalFields
    (hr : evalFields (env.evaluateWithin n) r fields ⟨s, h⟩ = .ok r' st) :
    ∃ values h', st = ⟨s, h'⟩ ∧ env.AnswersInTurn s (fields.map Prod.snd) h values h' ∧
      r' = r.assign ((fields.map Prod.fst).zip values) := by
  induction fields generalizing r h with
  | nil =>
    cases hr
    exact ⟨[], h, rfl, .nil, rfl⟩
  | cons field fields ih =>
    obtain ⟨name, e⟩ := field
    obtain ⟨v, t, hv, hr⟩ := bind_eq_ok_iff.1 hr
    obtain ⟨-, k, rfl, hv⟩ := (evaluateWithin_scope env n e s).at_ok hv
    obtain ⟨values, h', hst, hvalues, hr'⟩ := ih hr
    exact ⟨v :: values, h', hst, .cons (answers_ok_iff.2 ⟨n, hv⟩) hvalues, hr'⟩

theorem answersInTurn_of_evalFields_error
    (hr : evalFields (env.evaluateWithin n) r fields ⟨s, h⟩ = .error (.error cause) ⟨s, h'⟩) :
    ∃ before name e after values k, fields = before ++ (name, e) :: after ∧
      env.AnswersInTurn s (before.map Prod.snd) h values k ∧ env.Answers e s k (.error cause) h' := by
  induction fields generalizing r h with
  | nil => cases hr
  | cons field fields ih =>
    obtain ⟨name, e⟩ := field
    rcases bind_eq_error_iff.1 hr with he | ⟨v, t, hv, hr⟩
    · exact ⟨[], name, e, fields, [], h, rfl, .nil, answers_iff.2 ⟨n, he⟩⟩
    · obtain ⟨-, k, rfl, hv⟩ := (evaluateWithin_scope env n e s).at_ok hv
      obtain ⟨before, name', e', after, values, k', rfl, hvalues, he'⟩ := ih hr
      exact ⟨(name, e) :: before, name', e', after, v :: values, k', rfl,
        .cons (answers_ok_iff.2 ⟨n, hv⟩) hvalues, he'⟩

theorem evaluateWithin_record (env : Env σ) (n : Nat) (typeName : String) (fields : List (String × Expr)) :
    env.evaluateWithin (n + 1) (.record typeName fields) =
      Value.ofRecord <$> evalFields (env.evaluateWithin n) ⟨typeName, []⟩ fields := rfl

/-- **A construction that has a value assigns the values of its fields in their order.** -/
theorem answers_record_ok_iff {typeName : String} {v : Value} :
    env.Answers (.record typeName fields) s h (.ok v) h' ↔ ∃ values,
      env.AnswersInTurn s (fields.map Prod.snd) h values h' ∧
      v = .ofRecord (Record.assign ⟨typeName, []⟩ ((fields.map Prod.fst).zip values)) := by
  rw [answers_ok_iff]
  constructor
  · rintro ⟨n, hn⟩
    cases n with
    | zero => cases hn
    | succ n =>
      obtain ⟨r, hr, rfl⟩ := map_eq_ok_iff.1 hn
      obtain ⟨values, _, hst, hvalues, rfl⟩ := answersInTurn_of_evalFields hr
      cases hst
      exact ⟨values, hvalues, rfl⟩
  · rintro ⟨values, hvalues, rfl⟩
    obtain ⟨depth, hdepth⟩ := hvalues.evalFields []
    have hr := hdepth depth (Nat.le_refl _) ⟨typeName, []⟩
    rw [List.append_nil] at hr
    exact ⟨depth + 1, map_eq_ok_iff.2 ⟨_, hr, rfl⟩⟩

/-- **A construction fails as the first field that fails**, after those before it had values. -/
theorem answers_record_error_iff {typeName : String} :
    env.Answers (.record typeName fields) s h (.error cause) h' ↔ ∃ before name e after values k,
      fields = before ++ (name, e) :: after ∧ env.AnswersInTurn s (before.map Prod.snd) h values k ∧
      env.Answers e s k (.error cause) h' := by
  constructor
  · rintro ⟨depth, hdepth⟩
    have hr := hdepth (depth + 1) (Nat.le_succ depth)
    rw [evaluateWithin_record, ← bind_pure_comp] at hr
    rcases bind_eq_error_iff.1 hr with hr | ⟨_, _, -, hr⟩
    · exact answersInTurn_of_evalFields_error hr
    · cases hr
  · rintro ⟨before, name, e, after, values, k, rfl, hvalues, depth', he⟩
    obtain ⟨depth, hdepth⟩ := hvalues.evalFields ((name, e) :: after)
    refine answers_iff.2 ⟨max depth depth' + 1, ?_⟩
    rw [evaluateWithin_record, ← bind_pure_comp]
    refine bind_of_error ((hdepth _ (Nat.le_max_left depth depth') _).trans ?_)
    exact bind_of_error (he _ (Nat.le_max_right depth depth'))

end Env

/-- **Records are maps in the order of insertion.**  After any assignments to an empty record its names are those that
were assigned, each once, in the order of the first assignments, and reading gives the last value assigned, or none if
there is none; one more assignment leaves the fields of other names and their places alone.  A record that a tree
constructs has a value exactly if its fields have, one after the other, and then it is the record of their assignments
in this order, repeated names included; it fails exactly as the first field that fails. -/
theorem Record.assignments_ordered (typeName : String) (assignments : List (String × Value)) (env : Env σ) (s : Scope)
    (h h' : σ) (fields : List (String × Expr)) :
    ((assign ⟨typeName, []⟩ assignments).typeName = typeName ∧
      (assign ⟨typeName, []⟩ assignments).names.Nodup ∧
      (∀ name, name ∈ (assign ⟨typeName, []⟩ assignments).names ↔ name ∈ assignments.map Prod.fst) ∧
      ((assign ⟨typeName, []⟩ assignments).names.Pairwise fun m n =>
        (assignments.map Prod.fst).idxOf m < (assignments.map Prod.fst).idxOf n) ∧
      (∀ name, (assign ⟨typeName, []⟩ assignments).get? name = assignments.reverse.lookup name) ∧
      ∀ name v other, other ≠ name → ∀ (i : Nat) w,
        (((assign ⟨typeName, []⟩ assignments).set name v).fields[i]? = some (other, w) ↔
          (assign ⟨typeName, []⟩ assignments).fields[i]? = some (other, w))) ∧
    (∀ v, env.Answers (.record typeName fields) s h (.ok v) h' ↔ ∃ values,
      env.AnswersInTurn s (fields.map Prod.snd) h values h' ∧
      v = .ofRecord (assign ⟨typeName, []⟩ ((fields.map Prod.fst).zip values))) ∧
    ∀ cause, env.Answers (.record typeName fields) s h (.error cause) h' ↔ ∃ before name e after values k,
      fields = before ++ (name, e) :: after ∧ env.AnswersInTurn s (before.map Prod.snd) h values k ∧
      env.Answers e s k (.error cause) h' := by
  have hordered := pairwise_names_assign typeName assignments
  refine ⟨⟨typeName_assign _ _, hordered.imp fun hlt heq => ?_, fun _ => mem_names_assign, hordered,
    get?_assign typeName assignments, fun name v other hne i w => ?_⟩, fun _ => Env.answers_record_ok_iff,
    fun _ => Env.answers_record_error_iff⟩
  · rw [heq] at hlt
    exact Nat.lt_irrefl _ hlt
  · exact Fields.getElem?_set_of_ne hne _

/-- A field that is constructed twice stands in its first place with its last value. -/
theorem Record.assignments_ordered_twice :
    Expr.twoRows.Answers (.record "Pair" [("a", .literal (.int 1) ⟨0⟩), ("b", .source "rows"),
        ("a", .literal (.int 3) ⟨1⟩)]) [] ()
      (.ok (.record "Pair" [("a", .int 3), ("b", .list [.int 1, .int 2])])) () := by
  have hvalues : Expr.twoRows.AnswersInTurn []
      [.literal (.int 1) ⟨0⟩, .source "rows", .literal (.int 3) ⟨1⟩] ()
      [.int 1, .list [.int 1, .int 2], .int 3] () :=
    .cons (Env.answers_ok_iff.2 ⟨1, rfl⟩) (.cons (Env.answers_ok_iff.2 ⟨1, rfl⟩)
      (.cons (Env.answers_ok_iff.2 ⟨1, rfl⟩) .nil))
  exact ((assignments_ordered "Pair" [] Expr.twoRows [] () () _).2.1 _).2 ⟨_, hvalues, rfl⟩

end Splice
