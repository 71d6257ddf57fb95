import Splice.Proofs.Evaluation.Following
/-!
# Evaluation under observation

A watched evaluation notes every contact with what a backend does not have: each call of a host function, and each
marker call that is reached.  It does what the evaluation does (`Env.watchWithin_follows`), so the notes are about the
evaluation.

A tree is inert if none of its nodes is a host call or a marker call, and its captured values hold no lambda whose body
has one, however deep.  **An inert tree contacts nothing** (`Env.watchWithin_inert`), in every scope of inert values.
Values come from captured values, rows and lambda nodes, so every lambda that is applied on the way is inert too.
-/
namespace Splice

open Run

variable {σ : Type}

/-! ## Watching -/

inductive Contact where
  /-- A host function was called. -/
  | host (f : HostFunction) (args : List Value)
  /-- A marker call was reached. -/
  | marker (args : List Expr)

/-- The state of the host program, and the contacts so far, the last of them first. -/
structure Watch (σ : Type) where
  hostState : σ
  contacts : List Contact := []

def Watch.note (c : Contact) (w : Watch σ) : Watch σ := { w with contacts := c :: w.contacts }

/-- The host program whose calls are noted. -/
def Host.watched (host : Host σ) : Host (Watch σ) where
  call f args := fun w =>
    match host.call f args w.hostState with
    | .ok v h => .ok v (Watch.note (.host f args) { w with hostState := h })
    | .error e h => .error e (Watch.note (.host f args) { w with hostState := h })
  fuel := host.fuel

namespace Env

def watched (env : Env σ) : Env (Watch σ) := { host := env.host.watched, sources := env.sources }

/-- Evaluate a tree in the scope, at most `fuel` levels deep, and note the contacts. -/
def watchWithin (env : Env σ) : Nat → Expr → Eval (Watch σ) Value
  | 0, _ => throw .outOfFuel
  | fuel + 1, e =>
    let marker args := do
      Eval.onHost (modify (Watch.note (.marker args)))
      Evaluation.unexpanded (env.watchWithin fuel) args
    Evaluation.step env.watched marker (env.watchWithin fuel) e

theorem watched_call_follows (host : Host σ) (f : HostFunction) (args : List Value) :
    Follows strictly (fun (w : Watch σ) h => w.hostState = h) (Same fun _ => True)
      (.attemptOn (host.watched.call f args)) (.attemptOn (host.call f args)) := by
  rintro w _ rfl
  unfold Run.attemptOn Host.watched
  dsimp only
  cases host.call f args w.hostState with
  | ok v h => exact ⟨v, h, rfl, ⟨rfl, trivial⟩, rfl⟩
  | error e h => exact .inr ⟨h, rfl, rfl⟩

/-- **A watched evaluation is the evaluation**: the same value or the same stop, and the same state of the host
program. -/
theorem watchWithin_follows (env : Env σ) (fuel : Nat) (e : Expr) (s : Scope) :
    Follows strictly (At (fun (w : Watch σ) h => w.hostState = h) s s) (Same fun _ => True) (env.watchWithin fuel e)
      (env.evaluateWithin fuel e) := by
  induction fuel generalizing e s with
  | zero => exact follows_throw _
  | succ fuel ih =>
    refine Evaluation.step_follows_same hereditary_true (T := fun _ => True) (fun _ _ _ _ => trivial)
      (fun _ _ => Iff.rfl) (fun e _ s _ => ih e s) (fun _ => rfl) (fun _ _ _ => trivial) trivial
      (fun _ _ => trivial) (fun _ _ _ _ => trivial) (fun f _ _ vs _ => watched_call_follows env.host f vs)
      fun args _ => ?_
    refine follows_of_step (fun w h hwh => ⟨(), _, rfl, hwh⟩) fun _ => ?_
    exact Evaluation.unexpanded_follows fun c _ => ih c s

end Env

/-! ## Inert trees -/

mutual
/-- The bodies of all lambdas that are found in the value are inert. -/
inductive Value.Inert : Value → Prop
  | null : Value.Inert .null
  | bool (b : Bool) : Value.Inert (.bool b)
  | int (n : Int64) : Value.Inert (.int n)
  | float (x : Float) : Value.Inert (.float x)
  | string (s : String) : Value.Inert (.string s)
  | record {typeName : String} {fields : List (String × Value)} :
      (∀ field ∈ fields, Value.Inert field.2) → Value.Inert (.record typeName fields)
  | list {items : List Value} : (∀ v ∈ items, Value.Inert v) → Value.Inert (.list items)
  | lambda {params : List Param} {body : Expr} : Expr.Inert body → Value.Inert (.lambda params body)
/-- No node of the tree is a host call or a marker call, and its captured values are inert. -/
inductive Expr.Inert : Expr → Prop
  | node {e : Expr} : (∀ f args, e ≠ .call (.host f) args) → (∀ args, e ≠ .call .project args) →
      (∀ name v site, e = .captured name v site → Value.Inert v) → (∀ c ∈ e.children, Expr.Inert c) → Expr.Inert e
end

theorem hereditary_inert : Hereditary Value.Inert where
  null := .null
  bool := .bool
  int := .int
  float := .float
  string := .string
  list _ := ⟨fun h => by cases h with | list h => exact h, .list⟩
  record _ _ := ⟨fun h => by cases h with | record h => exact h, .record⟩

theorem Value.inert_lambda_iff {params : List Param} {body : Expr} :
    Value.Inert (.lambda params body) ↔ body.Inert :=
  ⟨fun h => by cases h with | lambda h => exact h, .lambda⟩

theorem Value.inert_of_lambdaFree : ∀ {v : Value}, v.lambdaFree = true → v.Inert
  | .null, _ => .null
  | .bool b, _ => .bool b
  | .int n, _ => .int n
  | .float x, _ => .float x
  | .string s, _ => .string s
  | .record _ _, h => .record fun (_, v) hfield =>
    have := List.sizeOf_lt_of_mem hfield
    inert_of_lambdaFree (fieldsLambdaFree_iff.1 h _ hfield)
  | .list _, h => .list fun v hv =>
    have := List.sizeOf_lt_of_mem hv
    inert_of_lambdaFree (itemsLambdaFree_iff.1 h v hv)
termination_by v => sizeOf v
decreasing_by
  · simp only [Prod.mk.sizeOf_spec, Value.record.sizeOf_spec] at *
    omega
  · simp only [Value.list.sizeOf_spec]
    omega

/-- **An inert tree contacts nothing.**  The state of the host program stays as it is, too. -/
theorem Env.watchWithin_inert {env : Env σ} (hrows : ∀ name v, env.source name = .ok v → v.Inert) (h : σ) (fuel : Nat)
    {e : Expr} (he : e.Inert) {s : Scope} (hs : s.Holds Value.Inert) :
    Follows strictly (At (fun (w : Watch σ) h' => w = ⟨h, []⟩ ∧ h' = h) s s) (Same Value.Inert)
      (env.watchWithin fuel e) (env.evaluateWithin fuel e) := by
  induction fuel generalizing e s with
  | zero => exact follows_throw _
  | succ fuel ih =>
    obtain ⟨hhost, hmarker, hcaptured, hchildren⟩ := he
    -- The rules for host calls and marker calls do not apply, and every lambda that is met has an inert body.
    refine Evaluation.step_follows_same hereditary_inert (T := Expr.Inert) ?_ (fun _ _ => Value.inert_lambda_iff)
      (fun e he s hs => ih he hs) (fun _ => rfl) hrows ⟨hhost, hmarker, hcaptured, hchildren⟩ hs hcaptured
      (fun f args heq => absurd heq (hhost f args)) fun args heq => absurd heq (hmarker args)
    rintro e ⟨-, -, -, hchildren⟩
    exact hchildren

end Splice
