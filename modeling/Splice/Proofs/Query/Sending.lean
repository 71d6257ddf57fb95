import Splice.Query.Composition
import Splice.Proofs.Expansion.MarkerFree
/-!
# What reaches the backend

A projecting provider expands the trees that it is given and passes the request on, so a request that goes through any
number of them comes to the backend with one tree (`Provider.sent`).  **A request of any kind is the answer of the
backend to that tree** (`Provider.request_follows`), with the same effects on the host program.

What a provider has expanded, the next one leaves as it is, and an operator expands its receiver before its lambda.  So
a receiver may be expanded before the operator is put on it (`Expr.expanded_operator`).
-/
namespace Splice

open Run

variable {σ α : Type}

/-! ## Receivers may be expanded before -/

namespace Expr

theorem expanded_expanded (host : Host σ) (limit : Nat) (e : Expr) :
    e.expanded host limit >>= (fun t => t.expanded host limit) = e.expanded host limit := by
  rw [bind_congr_of_follows (expanded_markerFree host limit e) fun t ht => expanded_of_markerFree host limit ht]
  exact bind_pure _

/-- **An operator may be put on its receiver before or after the receiver is expanded.** -/
theorem expanded_operator (host : Host σ) (limit : Nat) (op : QueryOp) (e : Expr) (f : Option Lambda) :
    (operator op e f).expanded host limit =
      (e.expanded host limit >>= fun t => (operator op t f).expanded host limit) := by
  -- Operators expand their receiver first of all, and once expanded it is rebuilt in the same place.
  have hop : ∀ r : Expr, (operator op r f).expanded host limit = (r.expanded host limit >>= fun t =>
      Expansion.expandAllWithin host limit limit (f.map ofLambda).toList >>= fun ts =>
        Run.attempt ((operator op t f).withChildren (t :: ts)) >>=
          Expansion.finish host (Expansion.expandWithin host limit limit)) := by
    intro r
    rw [expanded_eq, expanded_eq, Expansion.expandWithin_eq]
    show Expansion.expandAllWithin host limit limit (r :: (f.map ofLambda).toList) >>= _ = _
    rw [Expansion.expandAllWithin_cons]
    simp only [bind_assoc, pure_bind]
    rfl
  rw [hop e]
  refine bind_congr_of_follows (expanded_markerFree host limit e) fun t ht => ?_
  rw [hop t, expanded_of_markerFree host limit ht, pure_bind]

end Expr

namespace Query

/-! ## Sessions over a host program -/

def OnHost (s : Session σ) (h : σ) : Prop := s.hostState = h

theorem fresh_step (s : Session σ) (h : σ) (hs : OnHost s h) :
    ∃ id s', Session.fresh s = .ok id s' ∧ OnHost s' h := ⟨_, _, rfl, hs⟩

theorem note_step (r : Request) (s : Session σ) (h : σ) (hs : OnHost s h) :
    ∃ u s', Session.note r s = .ok u s' ∧ OnHost s' h := ⟨_, _, rfl, hs⟩

theorem provider_expanded_follows (host : Host σ) (limit : Nat) (e : Expr) :
    Follows strictly OnHost (· = ·) (Provider.expanded host limit e) (e.expanded host limit) := by
  refine follows_bind (Q := (· = ·)) (follows_of_inside (fun _ _ h => h) (fun _ _ _ _ _ h => h) (follows_refl _)) ?_
  rintro edit _ rfl
  exact follows_pure rfl

end Query

/-! ## Trees that are sent -/

namespace Provider

open Query (OnHost note_step fresh_step provider_expanded_follows)

variable (host : Host σ)

/-- The tree that the backend is given if the provider is asked to execute this one. -/
def sent : Provider → Expr → Run σ Expr
  | .backend, e => pure e
  | .projecting _ limit inner, e => e.expanded host limit >>= inner.sent

/-- **What was expanded once is not changed by the providers behind.** -/
theorem sent_of_markerFree (p : Provider) {e : Expr} (h : e.MarkerFree) : p.sent host e = pure e := by
  induction p with
  | backend => rfl
  | projecting id limit inner ih =>
    rw [sent, Expr.expanded_of_markerFree host limit h, pure_bind, ih]

/-- An operator without a lambda may be put on a tree before or after it is sent. -/
theorem sent_operator (p : Provider) (op : QueryOp) (e : Expr) :
    p.sent host (.operator op e none) = (p.sent host e >>= fun t => pure (.operator op t none)) := by
  cases p with
  | backend => rfl
  | projecting id limit inner =>
    have hfree : ∀ t : Expr, t.MarkerFree → (Expr.operator op t none).MarkerFree := fun t ht =>
      Expr.markerFree_iff.2 ⟨rfl, by simpa [Expr.operator, Expr.children] using ht⟩
    rw [sent, sent, Expr.expanded_operator, bind_assoc, bind_assoc]
    refine bind_congr_of_follows (Expr.expanded_markerFree host limit e) fun t ht => ?_
    rw [Expr.expanded_of_markerFree host limit (hfree t ht), sent_of_markerFree host inner ht, pure_bind, pure_bind,
      sent_of_markerFree host inner (hfree t ht)]

/-- A request that every projecting provider passes on once it has expanded the tree. -/
theorem request_follows {request : Provider → Expr → QueryM σ α} {answer : Expr → Run σ α}
    (hbackend : ∀ e, Follows strictly OnHost (· = ·) (request .backend e) (answer e))
    (hprojecting : ∀ id limit inner e,
      request (.projecting id limit inner) e = (expanded host limit e >>= request inner)) (p : Provider) (e : Expr) :
    Follows strictly OnHost (· = ·) (request p e) (p.sent host e >>= answer) := by
  induction p generalizing e with
  | backend => exact hbackend e
  | projecting id limit inner ih =>
    rw [hprojecting, sent, bind_assoc]
    refine follows_bind (provider_expanded_follows host limit e) ?_
    rintro t _ rfl
    exact ih t

/-- The rows of a value, if it is a list. -/
def listed : Value → Except Error (List Value)
  | .list rows => .ok rows
  | v => .error (.typeMismatch "row sequence" v.typeName)

theorem listRows_follows (v : Value) :
    Follows strictly OnHost (· = ·) (listRows v : QueryM σ (List Value)) (Run.attempt (listed v)) := by
  cases v with
  | list rows => exact follows_pure rfl
  | _ => exact follows_fail _

variable (b : Backend σ)

theorem execute_follows (p : Provider) (e : Expr) :
    Follows strictly OnHost (· = ·) (p.execute host b e) (p.sent host e >>= b.execute) := by
  refine request_follows host (fun e => ?_) (fun _ _ _ _ => rfl) p e
  refine follows_of_step (note_step _) fun _ => ?_
  exact follows_of_inside (fun _ _ h => h) (fun _ _ _ _ _ h => h) (follows_refl _)

theorem executeAsync_follows (p : Provider) (e : Expr) :
    Follows strictly OnHost (· = ·) (p.executeAsync host b e) (p.sent host e >>= b.execute) := by
  refine request_follows host (fun e => ?_) (fun _ _ _ _ => rfl) p e
  exact follows_of_step (note_step _) fun _ => execute_follows host b .backend e

theorem executeRows_follows (p : Provider) (e : Expr) :
    Follows strictly OnHost (· = ·) (p.executeRows host b e)
      (p.sent host e >>= fun t => b.execute t >>= fun v => Run.attempt (listed v)) := by
  refine request_follows host (fun e => ?_) (fun _ _ _ _ => rfl) p e
  refine follows_of_step (note_step _) fun _ => ?_
  refine follows_bind (execute_follows host b .backend e) ?_
  rintro v _ rfl
  exact listRows_follows v

/-- The query that a provider makes is its own, and has the tree that it sends. -/
theorem query_follows (p : Provider) (e : Expr) :
    Follows strictly OnHost (fun q t => q.val.tree = t ∧ q.val.provider = p) (p.query host e) (p.sent host e) := by
  induction p generalizing e with
  | backend =>
    refine follows_of_step (note_step _) fun _ => ?_
    exact follows_of_step fresh_step fun _ => follows_pure ⟨rfl, rfl⟩
  | projecting id limit inner ih =>
    refine follows_bind (provider_expanded_follows host limit e) ?_
    rintro t _ rfl
    rw [← bind_pure (inner.sent host t)]
    refine follows_bind (ih t) fun q t' hq => ?_
    exact follows_of_step fresh_step fun _ => follows_pure ⟨hq.1, rfl⟩

end Provider

end Splice
