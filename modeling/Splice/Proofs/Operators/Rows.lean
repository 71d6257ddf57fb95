import Splice.Proofs.Evaluation.Sessions
/-!
# Operators that apply a lambda to every row

An operator with a lambda argument first resolves the lambda and then evaluates the receiver (`Receives`).  What it does
with the rows is a loop over what the lambda makes of them, row by row.  `Yields` says that the lambda has a value on
every row that does not depend on where the row stands.
-/
namespace Splice

/-- What an aggregate makes of the values of its rows. -/
def Aggregate.of? : QueryOp → Option (List Value → Except Error Value)
  | .average => some average
  | .sum => some sum
  | .min => some (extreme .lt)
  | .max => some (extreme .gt)
  | _ => none

namespace Operators

open Run

variable {σ : Type}

/-- From `s`, the arguments of an operator give this lambda and these rows, and leave `s'`.  Null has no rows. -/
def Receives (ev : Expr → Eval σ Value) (receiver argument : Expr) (s : EvalState σ) (f : Lambda) (rows : List Value)
    (s' : EvalState σ) : Prop :=
  ∃ t v, lambdaAt ev argument s = .ok f t ∧ ev receiver t = .ok v s' ∧ (v = .list rows ∨ v = .null ∧ rows = [])

/-- In every state with the property `I`, which it keeps, the lambda has the value `g row` on each of the rows. -/
def Yields (ev : Expr → Eval σ Value) (I : EvalState σ → Prop) (f : Lambda) (g : Value → Value) (rows : List Value) :
    Prop :=
  ∀ row ∈ rows, ∀ s, I s → ∃ s', onRow ev f row s = .ok (g row) s' ∧ I s'

variable {ev : Expr → Eval σ Value} {receiver argument : Expr} {s s' s'' : EvalState σ} {f : Lambda} {rows : List Value}

theorem call_eq (ev : Expr → Eval σ Value) (op : QueryOp) (receiver argument : Expr) :
    call ev op [receiver, argument] = (do
      let f ← lambdaAt ev argument
      let v ← ev receiver
      onReceiver ev op (some f) v) := by
  show (some <$> lambdaAt ev argument >>= fun f => ev receiver >>= fun v => onReceiver ev op f v) = _
  rw [bind_map_left]

theorem Receives.call_eq (h : Receives ev receiver argument s f rows s') (op : QueryOp) :
    ∃ v, call ev op [receiver, argument] s = onReceiver ev op (some f) v s' ∧ rowsOf op v = (pure rows : Eval σ _) := by
  obtain ⟨t, v, hlambda, hreceiver, hrows⟩ := h
  refine ⟨v, ?_, ?_⟩
  · rw [Operators.call_eq]
    exact (bind_of_ok hlambda).trans (bind_of_ok hreceiver)
  · obtain rfl | ⟨rfl, rfl⟩ := hrows <;> rfl

section

variable {op : QueryOp} (hop : op ≠ .toText)
include hop

/-- Every operator but one works on the rows of its receiver. -/
theorem onReceiver_eq (f : Lambda) (v : Value) :
    onReceiver ev op (some f) v = (do onReceiver ev op (some f) (.list (← rowsOf op v))) := by
  cases op with
  | toText => exact absurd rfl hop
  | _ => rfl

/-- **A call that has a value has a lambda and rows.** -/
theorem call_eq_ok_iff {v : Value} : call ev op [receiver, argument] s = .ok v s' ↔
    ∃ f rows t, Receives ev receiver argument s f rows t ∧ onReceiver ev op (some f) (.list rows) t = .ok v s' := by
  constructor
  · intro h
    rw [call_eq] at h
    obtain ⟨f, t, hlambda, h⟩ := bind_eq_ok_iff.1 h
    obtain ⟨u, t', hreceiver, h⟩ := bind_eq_ok_iff.1 h
    rw [onReceiver_eq hop] at h
    obtain ⟨rows, t'', hrows, h⟩ := bind_eq_ok_iff.1 h
    cases u with
    | list items =>
      cases hrows
      exact ⟨f, _, t', ⟨t, _, hlambda, hreceiver, .inl rfl⟩, h⟩
    | null =>
      cases hrows
      exact ⟨f, _, t', ⟨t, _, hlambda, hreceiver, .inr ⟨rfl, rfl⟩⟩, h⟩
    | _ => cases hrows
  · rintro ⟨f, rows, t, hreceives, h⟩
    obtain ⟨u, hcall, hrows⟩ := hreceives.call_eq op
    rw [hcall, onReceiver_eq hop, hrows]
    exact h

/-- The same for a loop whose result becomes the value. -/
theorem call_loop_eq_ok_iff {α : Type} {loop : Lambda → List Value → Eval σ α} {wrap : α → Value}
    (hloop : ∀ f rows, onReceiver ev op (some f) (.list rows) = wrap <$> loop f rows) {v : Value} :
    call ev op [receiver, argument] s = .ok v s' ↔
      ∃ f rows t, Receives ev receiver argument s f rows t ∧ ∃ a, loop f rows t = .ok a s' ∧ wrap a = v := by
  simp only [call_eq_ok_iff hop, hloop, map_eq_ok_iff]

end

/-- **An aggregate is a function of the values that it selects.** -/
theorem onReceiver_of_aggregate {op : QueryOp} {total : List Value → Except Error Value}
    (hop : Aggregate.of? op = some total) (g : Option Lambda) (v : Value) :
    onReceiver ev op g v = (do Run.attempt (total (← selectedRows ev g (← rowsOf op v)))) := by
  cases op <;> cases hop <;> rfl

theorem mapRows_of_yields {I : EvalState σ → Prop} {g : Value → Value} (h : Yields ev I f g rows) (hs : I s) :
    ∃ s', mapRows ev f rows s = .ok (rows.map g) s' ∧ I s' := by
  induction rows generalizing s with
  | nil => exact ⟨s, rfl, hs⟩
  | cons row rows ih =>
    obtain ⟨t, hrow, ht⟩ := h row (List.mem_cons_self ..) s hs
    obtain ⟨s', hrows, hs'⟩ := ih (fun row' hrow' => h row' (List.mem_cons_of_mem _ hrow')) ht
    exact ⟨s', (bind_of_ok hrow).trans (bind_of_ok hrows), hs'⟩

theorem Yields.of_perm {I : EvalState σ → Prop} {g : Value → Value} {order : List Value} (h : Yields ev I f g rows)
    (hperm : order.Perm rows) : Yields ev I f g order :=
  fun row hrow => h row (hperm.mem_iff.1 hrow)

/-- **If the host program leaves no traces, a lambda that has a value on every row has it wherever the row stands.** -/
theorem yields_of_outcome {env : Env σ} (htraceless : env.host.Traceless) {g : Value → Value}
    (h : ∀ row ∈ rows, (onRow env.evaluate f row).outcome s = .ok (g row)) :
    Yields env.evaluate (· = s) f g rows := by
  rintro row hrow _ rfl
  obtain ⟨s', hs'⟩ := outcome_eq_ok_iff.1 (h row hrow)
  exact ⟨s', hs', htraceless.onRow_ok hs'⟩

section

variable (h : Receives ev receiver argument s f rows s') {values : List Value}
  (hvalues : mapRows ev f rows s' = .ok values s'')
include h hvalues

theorem Receives.call_aggregate_eq {op : QueryOp} {total : List Value → Except Error Value}
    (hop : Aggregate.of? op = some total) :
    call ev op [receiver, argument] s = Run.attempt (total (values.filter (!·.isNull))) s'' := by
  obtain ⟨v, hcall, hrows⟩ := h.call_eq op
  have hselected : selectedRows ev (some f) rows s' = .ok (values.filter (!·.isNull)) s'' := bind_of_ok hvalues
  rw [hcall, onReceiver_of_aggregate hop, hrows]
  exact bind_of_ok hselected

theorem Receives.call_sum_eq :
    call ev .sum [receiver, argument] s = Run.attempt (Aggregate.sum (values.filter (!·.isNull))) s'' :=
  h.call_aggregate_eq hvalues rfl

theorem Receives.call_orderBy_eq : call ev .orderBy [receiver, argument] s =
    (Value.list <$> Run.attempt (Sorting.sortRows (List.zipWith .mk values rows)) : Eval σ Value) s'' := by
  obtain ⟨v, hcall, hrows⟩ := h.call_eq .orderBy
  have hkeyed : keyRows ev f rows s' = .ok (List.zipWith .mk values rows) s'' := bind_of_ok hvalues
  rw [hcall]
  show (rowsOf QueryOp.orderBy v >>= _) s' = _
  rw [hrows]
  exact bind_of_ok hkeyed

end

/-! ## Rows that are written in the query -/

/-- A program without state, whose one function makes a list of its arguments. -/
def listing : Env Unit := { host := { call := fun _ args => pure (.list args), fuel := 2 } }

def row : Param := ⟨⟨0, 0⟩, "row", .any⟩

def written (rows : List Value) : Expr := .captured "rows" (.list rows) ⟨0⟩

theorem receives_written (rows : List Value) :
    Receives listing.evaluate (written rows) (.lambda [row] (.param row)) { hostState := () } ⟨[row], .param row⟩ rows
      { hostState := () } :=
  ⟨_, _, rfl, rfl, .inl rfl⟩

theorem yields_row (rows : List Value) :
    Yields listing.evaluate (· = { hostState := () }) ⟨[row], .param row⟩ id rows := by
  rintro v - s rfl
  exact ⟨_, rfl, rfl⟩

theorem mapRows_row (rows : List Value) :
    mapRows listing.evaluate ⟨[row], .param row⟩ rows { hostState := () } = .ok rows { hostState := () } := by
  obtain ⟨s, hrows, rfl⟩ := mapRows_of_yields (yields_row rows) rfl
  rwa [List.map_id] at hrows

end Operators

end Splice
