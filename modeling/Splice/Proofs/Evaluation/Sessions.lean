import Splice.Proofs.Evaluation.Following
/-!
# One evaluator, many calls

An evaluator keeps the bindings of parameters on a stack, which every application of a lambda extends and cuts back.
Operators apply lambdas row by row and end at the first row that fails, in the middle of whatever they are nested in.
**Every call of an evaluator leaves the stack as it was**, whatever the call came to (`Evaluation.Call.run_scope`).

So nothing but the state of the host program passes from one call to the next: a session with one evaluator gives the
answers that a new evaluator for every call would give (`Evaluation.session_eq_apart`).
-/
namespace Splice

open Run

variable {σ : Type}

/-- **An evaluation leaves the scope as it was**, and whatever every host function leaves of the state of the host
program; it does the same in every state with this scope. -/
theorem Env.evaluateWithin_keeps {env : Env σ} {H : σ → σ → Prop}
    (hhost : ∀ f args, Follows strictly H (Same fun _ => True) (.attemptOn (env.host.call f args))
      (.attemptOn (env.host.call f args))) (fuel : Nat) (e : Expr) (s : Scope) :
    Follows strictly (At H s s) (Same fun _ => True) (env.evaluateWithin fuel e) (env.evaluateWithin fuel e) := by
  -- The scope of a row is pushed on the scope that the row is met in, so the induction is for all scopes at once.
  induction fuel generalizing e s with
  | zero => exact follows_throw _
  | succ fuel ih =>
    refine Evaluation.step_follows_same hereditary_true (T := fun _ => True) (fun _ _ _ _ => trivial)
      (fun _ _ => Iff.rfl) (fun e _ s _ => ih e s) (fun _ => rfl) (fun _ _ _ => trivial) trivial
      (fun _ _ => trivial) (fun _ _ _ _ => trivial) (fun f _ _ vs _ => hhost f vs) fun args _ => ?_
    exact Evaluation.unexpanded_follows fun c _ => ih c s

theorem Env.evaluateWithin_scope (env : Env σ) (fuel : Nat) (e : Expr) (s : Scope) :
    Follows strictly (At (· = ·) s s) (Same fun _ => True) (env.evaluateWithin fuel e) (env.evaluateWithin fuel e) :=
  env.evaluateWithin_keeps (fun _ _ => follows_attemptOn fun _ _ _ _ => trivial) fuel e s

theorem final_scope_of_follows {α : Type} {Q : α → α → Prop} {x : Eval σ α}
    (h : ∀ s, Follows strictly (At (· = ·) s s) Q x x) (st : EvalState σ) : (x.final st).scope = st.scope :=
  ((h st.scope).final (s := st) (t := st) ⟨rfl, rfl, rfl⟩).1

/-! ## Programs without traces -/

/-- The functions of the host program leave its state as it is. -/
def Host.Traceless (host : Host σ) : Prop := ∀ f args h, (Run.attemptOn (host.call f args)).final h = h

namespace Host.Traceless

/-- Both host programs are in this state. -/
def Pinned (h a b : σ) : Prop := a = h ∧ b = h

theorem eq_of_follows {α : Type} {Q : α → α → Prop} {x : Eval σ α} {a : α} {st t : EvalState σ}
    (h : Follows strictly (At (Pinned st.hostState) st.scope st.scope) Q x x) (hx : x st = .ok a t) : t = st := by
  obtain ⟨_, _, -, -, hscope, -, hhost, -⟩ := h.of_ok (s := st) (t := st) ⟨rfl, rfl, rfl, rfl⟩ hx
  obtain ⟨scope, k⟩ := t
  cases hscope
  cases hhost
  rfl

variable {env : Env σ} (htraceless : env.host.Traceless)
include htraceless

theorem evaluateWithin_follows (n : Nat) (h : σ) (e : Expr) (s : Scope) :
    Follows strictly (At (Pinned h) s s) (Same fun _ => True) (env.evaluateWithin n e) (env.evaluateWithin n e) := by
  refine Env.evaluateWithin_keeps (fun f args a b hab => ?_) n e s
  obtain ⟨ha, hb⟩ := hab
  rw [ha, hb]
  have hfinal := htraceless f args h
  unfold Run.final at hfinal
  cases hcall : Run.attemptOn (env.host.call f args) h with
  | ok v h' =>
    rw [hcall] at hfinal
    exact ⟨v, h', rfl, ⟨rfl, trivial⟩, hfinal, hfinal⟩
  | error halt h' =>
    rw [hcall] at hfinal
    exact .inr ⟨h', rfl, hfinal, hfinal⟩

theorem onRow_ok {n : Nat} {f : Lambda} {row v : Value} {st t : EvalState σ}
    (h : Operators.onRow (env.evaluateWithin n) f row st = .ok v t) : t = st := by
  refine eq_of_follows (Q := Same fun _ => True) ?_ h
  exact Operators.apply_follows fun _ => htraceless.evaluateWithin_follows n st.hostState f.body _

end Host.Traceless

/-! ## Calls -/

namespace Evaluation

/-- What an evaluator can be asked for. -/
inductive Call where
  | evaluate (e : Expr)
  | apply (f : Lambda) (args : List Value)

namespace Call

def run (env : Env σ) : Call → Eval σ Value
  | .evaluate e => env.evaluate e
  | .apply f args => env.apply f args

/-- The call of a new evaluator, which has nothing in scope. -/
def alone (env : Env σ) (c : Call) : Run σ Value :=
  (c.run env).inside (fun h => { hostState := h }) fun _ st => st.hostState

theorem run_follows (env : Env σ) (c : Call) (s : Scope) :
    Follows strictly (At (· = ·) s s) (Same fun _ => True) (c.run env) (c.run env) := by
  cases c with
  | evaluate e => exact env.evaluateWithin_scope env.host.fuel e s
  | apply f args => exact Operators.apply_follows fun _ => env.evaluateWithin_scope env.host.fuel f.body _

/-- **A call leaves the scope as it was**, whether it ends with a value or with an error. -/
theorem run_scope (env : Env σ) (c : Call) (st : EvalState σ) : ((c.run env).final st).scope = st.scope :=
  final_scope_of_follows (run_follows env c) st

/-- **What a new evaluator leaves is new again**, but for the state of the host program. -/
theorem final_run (env : Env σ) (c : Call) (h : σ) :
    (c.run env).final { hostState := h } = { hostState := (c.alone env).final h } := by
  have hscope := c.run_scope env { hostState := h }
  rw [alone, final_inside]
  generalize (c.run env).final { hostState := h } = st at hscope ⊢
  obtain ⟨scope, h'⟩ := st
  cases hscope
  rfl

end Call

/-! ## Sessions -/

/-- The answers to the calls of one evaluator, and the state that they leave it in. -/
def session (env : Env σ) : List Call → EvalState σ → List (Except Halt Value) × EvalState σ
  | [], st => ([], st)
  | c :: calls, st =>
    let (answers, last) := session env calls ((c.run env).final st)
    ((c.run env).outcome st :: answers, last)

/-- The answers of a new evaluator for every call; they share the host program, and nothing else. -/
def apart (env : Env σ) : List Call → σ → List (Except Halt Value) × σ
  | [], h => ([], h)
  | c :: calls, h =>
    let (answers, last) := apart env calls ((c.alone env).final h)
    ((c.alone env).outcome h :: answers, last)

/-- **A session is as good as a new evaluator for every call.**  Whatever the state of an evaluator is, a call leaves
its scope as it was, also if the call fails; so in a session every call has the answer of a new evaluator, whatever
was called before it. -/
theorem session_eq_apart (env : Env σ) :
    (∀ (c : Call) (st : EvalState σ), ((c.run env).final st).scope = st.scope) ∧
      ∀ (calls : List Call) (h : σ),
        session env calls { hostState := h } = ((apart env calls h).1, { hostState := (apart env calls h).2 }) := by
  refine ⟨fun c st => c.run_scope env st, fun calls => ?_⟩
  induction calls with
  | nil => exact fun _ => rfl
  | cons c calls ih =>
    intro h
    rw [session, apart, c.final_run, ih, Call.alone, outcome_inside]

/-- Over a program without state the calls before a call make no difference at all. -/
theorem session_answers (env : Env Unit) (calls : List Call) :
    (session env calls { hostState := () }).1 = calls.map fun c => (c.alone env).outcome () := by
  induction calls with
  | nil => rfl
  | cons c calls ih =>
    rw [session, c.final_run, List.map_cons, ← ih, Call.alone, outcome_inside]

end Evaluation

end Splice
