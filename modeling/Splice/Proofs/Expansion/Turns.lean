import Splice.Proofs.Expansion.Stops
import Mathlib.Logic.Hydra
import Mathlib.Data.Prod.Lex
/-!
# Why an expansion ends

`Expansion.turn` is one turn of an expansion as a machine: the visit of the tree and the visits of the bodies within
bodies stand on a stack, and nothing bounds their number but the guard on the depth.  A body may be of any size, larger
than the marker call that it replaces, so no count of nodes falls from turn to turn.

What falls is a pair for each visit on the stack: how far its depth is from the limit, and what it has still to do.
Within a visit the work gets less; a body is entered one deeper, after its marker call was taken from the work; a visit
that is through goes away.  So **every turn puts smaller pairs, in the lexicographic order, in the place of one pair**
(`Expansion.turn_cutExpand`), and there is no run without end.

The machine does what the expansion does (`Expansion.enter_performs`), so an expansion gives a tree or an error if no
evaluation of a reference is endless (`Expr.expand_terminates`).
-/
namespace Splice

open Run

variable {σ : Type}

namespace Expansion

/-! ## The machine -/

/-- A visit under way: what it has still to do, and the trees that are there, newest first. -/
structure Visit where
  work : List (Frame Expr)
  trees : List Expr := []

/-- A visit that waits for the body which is to take the place of a marker call. -/
structure Caller where
  visit : Visit
  f : Lambda
  actuals : List Expr

/-- The visit under way and the ones that wait for it, innermost first. -/
structure Stack where
  visit : Visit
  callers : List Caller := []

/-- The visit of a tree before its first turn. -/
def Stack.start (e : Expr) : Stack := { visit := { work := [.enter e] } }

/-- The lambda whose body may take the place of a marker call at this depth. -/
def callable (host : Host σ) (limit depth : Nat) (reference : Expr) (actuals : List Expr) : Run σ Lambda := do
  let f ← reference.resolve host
  if f.arity = actuals.length then
    if depth < limit then pure f else Run.fail (.cyclicProjection limit)
  else Run.fail (.arityMismatch f.arity actuals.length)

/-- Leave a node that was rebuilt, in a visit that is through with the node otherwise. -/
def leave (host : Host σ) (limit : Nat) (visit : Visit) (callers : List Caller) : Expr → Run σ Stack
  | .call .project [] => Run.fail .missingReference
  | .call .project (reference :: actuals) => do
    let f ← callable host limit callers.length reference actuals
    return ⟨{ work := [.enter f.body] }, ⟨visit, f, actuals⟩ :: callers⟩
  | node => pure ⟨{ visit with trees := node :: visit.trees }, callers⟩

/-- One turn: the next stack, or the tree at the end. -/
def turn (host : Host σ) (limit : Nat) : Stack → Run σ (Stack ⊕ Expr)
  | ⟨⟨.enter e :: work, trees⟩, callers⟩ =>
    pure (.inl ⟨⟨e.children.map .enter ++ .exit e e.children.length :: work, trees⟩, callers⟩)
  | ⟨⟨.exit e n :: work, trees⟩, callers⟩ => do
    let (cs, rest) ← Visitor.takeResults "pass" n trees
    let node ← Run.attempt (e.withChildren cs)
    return .inl (← leave host limit ⟨work, rest⟩ callers node)
  | ⟨⟨.done t :: work, trees⟩, callers⟩ => pure (.inl ⟨⟨work, t :: trees⟩, callers⟩)
  | ⟨⟨[], trees⟩, ⟨visit, f, actuals⟩ :: callers⟩ => do
    let body ← Visitor.onlyResult "pass" trees
    return .inl ⟨{ visit with trees := (Substitution.ofCall f.params actuals).replace body :: visit.trees }, callers⟩
  | ⟨⟨[], trees⟩, []⟩ => do return .inr (← Visitor.onlyResult "pass" trees)

variable {host : Host σ} {limit : Nat}

/-! ## What falls -/

/-- How far a depth is from the limit, and what a visit at that depth has still to do. -/
def Visit.measure (limit depth : Nat) (visit : Visit) : ℕ ×ₗ ℕ :=
  toLex (limit - depth, Frame.totalWeight visit.work)

def callersMeasure (limit : Nat) : List Caller → Multiset (ℕ ×ₗ ℕ)
  | [] => 0
  | caller :: callers => caller.visit.measure limit callers.length ::ₘ callersMeasure limit callers

/-- The measures of all visits on the stack, each at its depth. -/
def Stack.measure (limit : Nat) (stack : Stack) : Multiset (ℕ ×ₗ ℕ) :=
  stack.visit.measure limit stack.callers.length ::ₘ callersMeasure limit stack.callers

/-- **What a turn does**: the visit goes on with less work, or it waits for a body one deeper, or it is through. -/
inductive Turns (limit : Nat) : Stack → Stack → Prop
  | on {visit visit' : Visit} {callers : List Caller} :
      Frame.totalWeight visit'.work < Frame.totalWeight visit.work → Turns limit ⟨visit, callers⟩ ⟨visit', callers⟩
  | down {visit visit' : Visit} {callers : List Caller} {f : Lambda} {actuals : List Expr} :
      Frame.totalWeight visit'.work < Frame.totalWeight visit.work → callers.length < limit →
        Turns limit ⟨visit, callers⟩ ⟨{ work := [.enter f.body] }, ⟨visit', f, actuals⟩ :: callers⟩
  | up {trees : List Expr} {t : Expr} {caller : Caller} {callers : List Caller} :
      Turns limit ⟨⟨[], trees⟩, caller :: callers⟩
        ⟨{ caller.visit with trees := t :: caller.visit.trees }, callers⟩

theorem callable_lt {depth : Nat} {reference : Expr} {actuals : List Expr} {f : Lambda} {s s' : σ}
    (h : callable host limit depth reference actuals s = .ok f s') : depth < limit := by
  obtain ⟨g, k, -, h⟩ := bind_eq_ok_iff.1 h
  split at h
  · split at h
    · assumption
    · cases h
  · cases h

theorem turns_of_leave {visit visit' : Visit} {callers : List Caller} {node : Expr} {stack' : Stack} {s s' : σ}
    (hless : Frame.totalWeight visit'.work < Frame.totalWeight visit.work)
    (h : leave host limit visit' callers node s = .ok stack' s') : Turns limit ⟨visit, callers⟩ stack' := by
  unfold leave at h
  split at h
  · cases h
  · obtain ⟨f, k, hf, h⟩ := bind_eq_ok_iff.1 h
    cases h
    exact .down hless (callable_lt hf)
  · cases h
    exact .on hless

theorem turns_of_turn {stack stack' : Stack} {s s' : σ} (h : turn host limit stack s = .ok (.inl stack') s') :
    Turns limit stack stack' := by
  unfold turn at h
  split at h
  case h_1 e work trees callers =>
    cases h
    exact .on (Frame.totalWeight_children e _ work)
  case h_2 e n work trees callers =>
    obtain ⟨⟨cs, rest⟩, k, -, h⟩ := bind_eq_ok_iff.1 h
    obtain ⟨node, k', -, h⟩ := bind_eq_ok_iff.1 h
    obtain ⟨stack'', k'', hleave, h⟩ := bind_eq_ok_iff.1 h
    cases h
    exact turns_of_leave (by simp [Frame.totalWeight, Frame.weight]) hleave
  case h_3 t work trees callers =>
    cases h
    exact .on (by simp [Frame.totalWeight, Frame.weight])
  case h_4 trees visit f actuals callers =>
    obtain ⟨body, k, -, h⟩ := bind_eq_ok_iff.1 h
    cases h
    exact .up
  case h_5 =>
    obtain ⟨t, k, -, h⟩ := bind_eq_ok_iff.1 h
    cases h

theorem measure_lt_of_work {depth : Nat} {visit visit' : Visit}
    (h : Frame.totalWeight visit'.work < Frame.totalWeight visit.work) :
    visit'.measure limit depth < visit.measure limit depth := Prod.Lex.toLex_lt_toLex.2 (.inr ⟨rfl, h⟩)

theorem measure_lt_of_depth {depth : Nat} {visit visit' : Visit} (h : depth < limit) :
    visit'.measure limit (depth + 1) < visit.measure limit depth :=
  Prod.Lex.toLex_lt_toLex.2 (.inl (by omega))

/-- **Every turn puts smaller pairs in the place of one pair.** -/
theorem turn_cutExpand {stack stack' : Stack} {s s' : σ} (h : turn host limit stack s = .ok (.inl stack') s') :
    Relation.CutExpand (· < ·) (stack'.measure limit) (stack.measure limit) := by
  cases turns_of_turn h with
  | on hless =>
    exact (Relation.cutExpand_add_right _).2 (Relation.cutExpand_singleton_singleton (measure_lt_of_work hless))
  | @down visit visit' callers f actuals hless hdepth =>
    have hbody : Visit.measure limit (callers.length + 1) { work := [.enter f.body] } <
        visit.measure limit callers.length := measure_lt_of_depth hdepth
    have hdouble := (Relation.cutExpand_add_right (callersMeasure limit callers)).2
      (Relation.cutExpand_double hbody (measure_lt_of_work hless))
    rwa [Multiset.insert_eq_cons, Multiset.cons_add, Multiset.singleton_add, Multiset.singleton_add] at hdouble
  | @up trees t caller callers =>
    have hgone := (Relation.cutExpand_add_right (Stack.measure limit ⟨caller.visit, callers⟩)).2
      (Relation.cutExpand_zero (r := (· < ·)) (x := Visit.measure limit (callers.length + 1) ⟨[], trees⟩))
    rwa [zero_add] at hgone

/-- **No run of the machine is endless**, from whatever stack and state it starts. -/
theorem no_endless_run (host : Host σ) (limit : Nat) (run : ℕ → Stack × σ) :
    ¬ ∀ i, turn host limit (run i).1 (run i).2 = .ok (.inl (run (i + 1)).1) (run (i + 1)).2 := by
  intro h
  have hwf : WellFounded (Relation.CutExpand ((· < ·) : ℕ ×ₗ ℕ → ℕ ×ₗ ℕ → Prop)) := wellFounded_lt.cutExpand
  exact (wellFounded_iff_isEmpty_descending_chain.1 hwf).false
    ⟨fun i => (run i).1.measure limit, fun i => turn_cutExpand (h i)⟩

/-! ## What the machine does -/

/-- The machine comes from the first stack and state to the second. -/
def Reaches (host : Host σ) (limit : Nat) : Stack × σ → Stack × σ → Prop :=
  Relation.ReflTransGen fun x y => turn host limit x.1 x.2 = .ok (.inl y.1) y.2

/-- From the stack and the state the machine comes to the outcome: where there is a value, to the stack `next` of it,
and where there is a stop, to a turn that stops for the same reason. -/
def Performs {α : Type} (host : Host σ) (limit : Nat) (stack : Stack) (s : σ) (next : α → Stack) :
    EStateM.Result Halt σ α → Prop
  | .ok a s' => Reaches host limit (stack, s) (next a, s')
  | .error halt s' => ∃ stack' k, Reaches host limit (stack, s) (stack', k) ∧
      turn host limit stack' k = .error halt s'

section

variable {α β : Type} {stack stack' : Stack} {s s' : σ}

theorem performs_of_reaches {next : α → Stack} {outcome : EStateM.Result Halt σ α}
    (h : Reaches host limit (stack, s) (stack', s')) (h' : Performs host limit stack' s' next outcome) :
    Performs host limit stack s next outcome := by
  cases outcome with
  | ok a k => exact h.trans h'
  | error halt k =>
    obtain ⟨last, k', hreaches, hstop⟩ := h'
    exact ⟨last, k', h.trans hreaches, hstop⟩

theorem performs_bind {x : Run σ α} {f : α → Run σ β} {mid : α → Stack} {next : β → Stack}
    (hx : Performs host limit stack s mid (x s))
    (hf : ∀ a k, x s = .ok a k → Performs host limit (mid a) k next (f a k)) :
    Performs host limit stack s next ((x >>= f) s) := by
  cases hxs : x s with
  | ok a k =>
    rw [hxs] at hx
    rw [bind_of_ok hxs]
    exact performs_of_reaches hx (hf a k hxs)
  | error halt k =>
    rw [hxs] at hx
    rwa [bind_of_error hxs]

/-- A turn that is a computation, whose value decides where the machine goes. -/
theorem performs_turn {x : Run σ α} {next : α → Stack}
    (h : turn host limit stack s = (x >>= fun a => pure (.inl (next a))) s) :
    Performs host limit stack s next (x s) := by
  cases hxs : x s with
  | ok a k => exact .single (h.trans (bind_of_ok hxs))
  | error halt k => exact ⟨stack, s, .refl, h.trans (bind_of_error hxs)⟩

end

/-- What takes the place of a marker call, as a node is left. -/
theorem finish_call_eq {levels depth : Nat} (hlevels : depth + levels = limit) (reference : Expr)
    (actuals : List Expr) :
    finish host (expandWithin host limit levels) (Marker.call reference actuals) =
      (callable host limit depth reference actuals >>= fun f => expandWithin host limit levels f.body >>= fun body =>
        pure ((Substitution.ofCall f.params actuals).replace body)) := by
  unfold callable
  rw [bind_assoc]
  show (reference.resolve host >>= _) = _
  congr 1; funext f
  split
  · cases levels with
    | zero =>
      rw [if_neg (by omega)]
      rfl
    | succ levels =>
      rw [if_pos (by omega), pure_bind]
  · rfl

theorem children_performs {levels : Nat} {callers : List Caller} {es : List Expr}
    (h : ∀ e ∈ es, ∀ work trees s, Performs host limit ⟨⟨.enter e :: work, trees⟩, callers⟩ s
      (fun t => ⟨⟨work, t :: trees⟩, callers⟩) (expandWithin host limit (levels + 1) e s))
    (work : List (Frame Expr)) (trees : List Expr) (s : σ) :
    Performs host limit ⟨⟨es.map .enter ++ work, trees⟩, callers⟩ s
      (fun ts => ⟨⟨work, ts.reverse ++ trees⟩, callers⟩) (expandAllWithin host limit levels es s) := by
  induction es generalizing trees s with
  | nil => exact .refl
  | cons e es ih =>
    rw [expandAllWithin_cons]
    refine performs_bind (h e List.mem_cons_self _ trees s) fun t k _ => ?_
    refine performs_bind (ih (fun c hc => h c (List.mem_cons_of_mem e hc)) (t :: trees) k) fun ts k' _ => ?_
    show Reaches host limit _ (⟨⟨work, (t :: ts).reverse ++ trees⟩, callers⟩, k')
    rw [List.reverse_cons, List.append_assoc]
    exact .refl

theorem leave_of_not_marker {visit : Visit} {callers : List Caller} {node : Expr}
    (h : Marker.isMarker node = false) :
    leave host limit visit callers node = pure ⟨{ visit with trees := node :: visit.trees }, callers⟩ := by
  unfold leave
  split
  · cases h
  · cases h
  · rfl

/-- The turn that leaves a node, the trees of its children being there. -/
theorem turn_exit (host : Host σ) (limit : Nat) {e node : Expr} {cs : List Expr} (hnode : Expr.Rebuilds e cs node)
    (work : List (Frame Expr)) (trees : List Expr) (callers : List Caller) :
    turn host limit ⟨⟨.exit e e.children.length :: work, cs.reverse ++ trees⟩, callers⟩ =
      (leave host limit ⟨work, trees⟩ callers node >>= fun stack => pure (.inl stack)) := by
  rw [turn, ← hnode.length, Visitor.takeResults_append, pure_bind]
  dsimp only
  rw [Expr.withChildren_eq_ok_iff.2 hnode]
  rfl

/-- **Leaving a node finishes it**, through the turns on the body if it is a marker call. -/
theorem exit_performs {levels : Nat} {callers : List Caller} (hlevels : callers.length + levels = limit)
    (hbody : ∀ body caller s, callers.length < limit →
      Performs host limit ⟨{ work := [.enter body] }, caller :: callers⟩ s
        (fun t => ⟨⟨[], [t]⟩, caller :: callers⟩) (expandWithin host limit levels body s))
    {e : Expr} {cs : List Expr} (hlen : cs.length = e.children.length) (work : List (Frame Expr)) (trees : List Expr)
    (s : σ) :
    Performs host limit ⟨⟨.exit e e.children.length :: work, cs.reverse ++ trees⟩, callers⟩ s
      (fun t => ⟨⟨work, t :: trees⟩, callers⟩)
      ((Run.attempt (e.withChildren cs) >>= finish host (expandWithin host limit levels)) s) := by
  obtain ⟨node, hnode⟩ := Expr.exists_rebuilds hlen
  have hturn := turn_exit host limit hnode work trees callers
  rw [Expr.withChildren_eq_ok_iff.2 hnode]
  change Performs host limit _ s _ (finish host (expandWithin host limit levels) node s)
  cases hm : Marker.isMarker node with
  | false =>
    rw [leave_of_not_marker hm, pure_bind] at hturn
    rw [finish_of_not_marker host _ hm]
    exact performs_turn (congrFun hturn s)
  | true =>
    obtain ⟨args, rfl⟩ := Expr.isMarker_iff.1 hm
    cases args with
    | nil => exact performs_turn (congrFun hturn s)
    | cons reference actuals =>
      -- The turn that leaves the marker call goes down to the body, and another one comes up with it.
      have hdown : turn host limit ⟨⟨.exit e e.children.length :: work, cs.reverse ++ trees⟩, callers⟩ =
          (callable host limit callers.length reference actuals >>= fun f =>
            pure (.inl ⟨{ work := [.enter f.body] }, ⟨⟨work, trees⟩, f, actuals⟩ :: callers⟩)) :=
        hturn.trans (bind_assoc _ _ _)
      change Performs host limit _ s _ (finish host (expandWithin host limit levels) (Marker.call reference actuals) s)
      rw [finish_call_eq hlevels]
      refine performs_bind (performs_turn (congrFun hdown s)) fun f k hf => ?_
      exact performs_bind (hbody f.body _ k (callable_lt hf)) fun body k' _ => .single rfl

/-- **The machine does with a tree what the expansion does**, on top of any work, trees and callers. -/
theorem enter_performs (host : Host σ) (limit : Nat) :
    ∀ (levels : Nat) (e : Expr) (callers : List Caller), callers.length + levels = limit → ∀ work trees s,
      Performs host limit ⟨⟨.enter e :: work, trees⟩, callers⟩ s (fun t => ⟨⟨work, t :: trees⟩, callers⟩)
        (expandWithin host limit (levels + 1) e s) := by
  -- One visit, at any depth: the induction is on the levels, and only the way into the body changes with them.
  have hnode : ∀ {levels : Nat} {callers : List Caller}, callers.length + levels = limit →
      (∀ body caller s, callers.length < limit →
        Performs host limit ⟨{ work := [.enter body] }, caller :: callers⟩ s
          (fun t => ⟨⟨[], [t]⟩, caller :: callers⟩) (expandWithin host limit levels body s)) →
      ∀ (e : Expr) work trees s,
        Performs host limit ⟨⟨.enter e :: work, trees⟩, callers⟩ s (fun t => ⟨⟨work, t :: trees⟩, callers⟩)
          (expandWithin host limit (levels + 1) e s) := by
    intro levels callers hlevels hbody e
    induction e using Expr.children_induction with
    | node e ih =>
      intro work trees s
      rw [expandWithin_eq]
      have henter : Reaches host limit (⟨⟨.enter e :: work, trees⟩, callers⟩, s)
          (⟨⟨e.children.map .enter ++ .exit e e.children.length :: work, trees⟩, callers⟩, s) := .single rfl
      refine performs_of_reaches henter (performs_bind (children_performs ih _ trees s) fun cs k hcs => ?_)
      exact exit_performs hlevels hbody (expandAllWithin_length hcs) work trees k
  intro levels
  induction levels with
  | zero => exact fun e callers hlevels => hnode hlevels (fun _ _ _ hlt => by omega) e
  | succ levels ih =>
    intro e callers hlevels
    refine hnode hlevels (fun body caller s _ => ?_) e
    exact ih body (caller :: callers) (by rw [List.length_cons]; omega) [] [] s

end Expansion

/-- **Expansions end.**  Whatever the limit is, and however large the bodies are that its references resolve to: every
turn of an expansion puts pairs in the place of one pair that are smaller in the lexicographic order, so no run of turns
is endless.  And if the evaluation of each reference on the way ends, the turns from the tree on come to the outcome of
the expansion, which is a tree without marker calls or an error. -/
theorem Expr.expand_terminates {host : Host σ} {limit : Nat} {e : Expr} {s : σ}
    (hresolve : ∀ r k, e.Consults host limit s r k → (r.resolve host).outcome k ≠ .error .outOfFuel) :
    (∀ (stack stack' : Expansion.Stack) (k k' : σ), Expansion.turn host limit stack k = .ok (.inl stack') k' →
      Relation.CutExpand (· < ·) (stack'.measure limit) (stack.measure limit)) ∧
    (∀ run : ℕ → Expansion.Stack × σ,
      ¬ ∀ i, Expansion.turn host limit (run i).1 (run i).2 = .ok (.inl (run (i + 1)).1) (run (i + 1)).2) ∧
    ∃ stack k, Expansion.Reaches host limit (.start e, s) (stack, k) ∧
      ((∃ edit s', e.expand host limit s = .ok edit s' ∧ (edit.result e).MarkerFree ∧
          Expansion.turn host limit stack k = .ok (.inr (edit.result e)) s') ∨
        ∃ cause s', e.expand host limit s = .error (.error cause) s' ∧
          Expansion.turn host limit stack k = .error (.error cause) s') := by
  refine ⟨fun _ _ _ _ => Expansion.turn_cutExpand, Expansion.no_endless_run host limit, ?_⟩
  have hperforms := Expansion.enter_performs host limit limit e [] (Nat.zero_add limit) [] [] s
  cases hx : e.expand host limit s with
  | ok edit s' =>
    obtain ⟨t, _, ht, ⟨rfl, -⟩, rfl⟩ := (expand_follows host limit e).of_ok rfl hx
    rw [ht] at hperforms
    exact ⟨_, _, hperforms, .inl ⟨edit, s', rfl, (expand_normalizes hx).1, rfl⟩⟩
  | error halt s' =>
    have hstop := expand_eq_error_iff.1 hx
    rw [hstop] at hperforms
    obtain ⟨stack, k, hreaches, hturn⟩ := hperforms
    cases halt with
    | error cause => exact ⟨stack, k, hreaches, .inr ⟨cause, s', rfl, hturn⟩⟩
    | outOfFuel =>
      obtain ⟨r, k', _, hr, hfuel⟩ := (Expansion.expandWithin_stops _ e s s' _ hstop).of_outOfFuel
      exact absurd (outcome_eq_error_iff.2 ⟨_, hfuel⟩) (hresolve r k' hr)

namespace Expr

/-! ### Two projections that refer to each other -/

def ask (f : HostFunction) : Expr := .call (.host f) []

def site (f : HostFunction) : Expr := Marker.call (ask f) []

def twice (f : HostFunction) : Expr := .binary .add (site f) (site f)

def ping : HostFunction := ⟨0, "ping"⟩

def pong : HostFunction := ⟨1, "pong"⟩

/-- Each of the two functions returns a lambda whose body calls the other one twice. -/
def pingPong : Host Unit := { call := fun f _ => pure (.lambda [] (twice (if f = ping then pong else ping))) }

theorem resolve_ask (f : HostFunction) :
    (ask f).resolve pingPong () = .ok ⟨[], twice (if f = ping then pong else ping)⟩ () := rfl

theorem expandAllWithin_ask {limit levels : Nat} {f : HostFunction} {ts : List Expr} {s s' : Unit}
    (h : Expansion.expandAllWithin pingPong limit levels [ask f] s = .ok ts s') : ts = [ask f] := by
  rw [Expansion.expandAllWithin_eq_pure fun c hc => Expansion.expandWithin_of_markerFree pingPong limit levels
    (List.mem_singleton.1 hc ▸ markerFree_leaf rfl rfl)] at h
  cases h
  rfl

/-- On the way nothing is consulted but the two functions. -/
theorem consults_pingPong {limit levels : Nat} {r e : Expr} {k s : Unit}
    (h : Expansion.Consults pingPong limit r k levels e s) (he : ∃ f, e = site f ∨ e = twice f) : ∃ f, r = ask f := by
  induction h with
  | child hsplit _ hc ih =>
    have hmem := hsplit ▸ List.mem_append_right _ List.mem_cons_self
    obtain ⟨f, rfl | rfl⟩ := he
    · cases List.mem_singleton.1 hmem
      exact absurd (markerFree_leaf rfl rfl) hc.not_markerFree
    · refine ih ⟨f, .inl ?_⟩
      simpa [twice, children] using hmem
  | site hts =>
    obtain ⟨f, heq | heq⟩ := he <;> cases heq
    cases expandAllWithin_ask hts
    exact ⟨f, rfl⟩
  | body hts hf _ _ ih =>
    obtain ⟨f, heq | heq⟩ := he <;> cases heq
    cases expandAllWithin_ask hts
    cases (resolve_ask f).symm.trans hf
    exact ih ⟨_, .inr rfl⟩

/-- Each body is larger than the marker call that it replaces, and the expansion ends at its limit. -/
theorem expand_terminates_pingPong :
    (∀ f, (site f).size < (twice f).size) ∧
      (∀ r k, (site ping).Consults pingPong 3 () r k → (r.resolve pingPong).outcome k ≠ .error .outOfFuel) ∧
      (site ping).expand pingPong 3 () = .error (.error (.cyclicProjection 3)) () ∧
      ∃ stack k, Expansion.Reaches pingPong 3 (.start (site ping), ()) (stack, k) ∧
        Expansion.turn pingPong 3 stack k = .error (.error (.cyclicProjection 3)) () := by
  have hresolve : ∀ r k, (site ping).Consults pingPong 3 () r k →
      (r.resolve pingPong).outcome k ≠ .error .outOfFuel := by
    intro r k hr
    obtain ⟨f, rfl⟩ := consults_pingPong hr ⟨ping, .inl rfl⟩
    rw [outcome_eq_ok_iff.2 ⟨(), resolve_ask f⟩]
    exact nofun
  have hlimit : (site ping).expand pingPong 3 () = .error (.error (.cyclicProjection 3)) () :=
    expand_eq_error_iff.2 rfl
  refine ⟨fun f => show 2 < 5 by decide, hresolve, hlimit, ?_⟩
  obtain ⟨-, -, stack, k, hreaches, hend⟩ := expand_terminates hresolve
  rcases hend with ⟨_, _, htree, -⟩ | ⟨_, _, herror, hturn⟩
  · cases hlimit.symm.trans htree
  · cases hlimit.symm.trans herror
    exact ⟨stack, k, hreaches, hturn⟩

end Expr

end Splice
