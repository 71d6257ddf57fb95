import Splice.Proofs.Expansion.Expands
import Mathlib.Data.ENat.Lattice
import Mathlib.Order.CompletePartialOrder
/-!
# What the limit of an expansion measures

Marker calls nest through the bodies of the lambdas that they refer to.  The nesting of a tree is the greatest nesting
of a body that it refers to, and one more (`Expr.nesting_eq`); it is `⊤` if the bodies never end.  **An expansion
succeeds exactly if its limit allows this nesting, and fails at the limit otherwise** (`Expr.expand_of_nesting`).

A reference is expanded before it is resolved.  So the body of a lambda that is written in a reference has no marker
calls any more when it is inlined: those that were there are marker calls of the tree around it, and were expanded at
its depth.  Counting the body as it is written gives a number that is too great (`Expr.nesting_written_inline`).

The nesting is a number of the tree because references must yield their lambdas deterministically (SPEC_FULL.md, section
3); so the host program has no state here (`Host Unit`), and a reference denotes the same lambda whenever it is met.
-/
namespace Splice

open Run

namespace Expr

/-! ## Nesting -/

section

variable (refers : Expr → Lambda → Prop)

/-- A marker call of the tree, wherever it stands, refers to this lambda. -/
def Projects (e : Expr) (f : Lambda) : Prop :=
  ∃ reference actuals, Within (.call .project (reference :: actuals)) e ∧ refers reference f

/-- So many bodies lie inside one another below the tree. -/
inductive Nests : Nat → Expr → Prop
  | zero {e : Expr} : Nests 0 e
  | body {e : Expr} {f : Lambda} {k : Nat} : e.Projects refers f → Nests k f.body → Nests (k + 1) e

/-- How many bodies lie inside one another below the tree. -/
noncomputable def nesting (e : Expr) : ℕ∞ := ⨆ (k : ℕ) (_ : Nests refers k e), (k : ℕ∞)

/-- The marker calls of a tree lead to `b`, through any number of bodies: it may be the tree itself. -/
inductive LeadsTo (b : Expr) : Expr → Prop
  | self : LeadsTo b b
  | body {e : Expr} {f : Lambda} : e.Projects refers f → LeadsTo b f.body → LeadsTo b e

/-- The arguments of every marker call are as stated, in the tree and in all bodies that it leads to. -/
def EverySite (P : List Expr → Prop) (e : Expr) : Prop :=
  ∀ b, LeadsTo refers b e → ∀ args, Within (.call .project args) b → P args

end

variable {refers : Expr → Lambda → Prop} {e : Expr}

theorem Nests.mono {j k : Nat} (h : Nests refers k e) (hjk : j ≤ k) : Nests refers j e := by
  induction h generalizing j with
  | zero => exact Nat.le_zero.1 hjk ▸ .zero
  | body hf _ ih =>
    cases j with
    | zero => exact .zero
    | succ j => exact .body hf (ih (Nat.le_of_succ_le_succ hjk))

theorem nests_succ_iff {k : Nat} : Nests refers (k + 1) e ↔ ∃ f, e.Projects refers f ∧ Nests refers k f.body :=
  ⟨fun | .body hf hk => ⟨_, hf, hk⟩, fun ⟨_, hf, hk⟩ => .body hf hk⟩

theorem lt_nesting_iff {limit : ℕ} : limit < e.nesting refers ↔ Nests refers (limit + 1) e := by
  simp only [nesting, lt_iSup_iff, Nat.cast_lt, exists_prop]
  constructor
  · rintro ⟨k, hk, hlt⟩
    exact hk.mono hlt
  · intro h
    exact ⟨limit + 1, h, Nat.lt_succ_self limit⟩

theorem nesting_le_iff {limit : ℕ} : e.nesting refers ≤ limit ↔ ¬ Nests refers (limit + 1) e := by
  rw [← not_lt, lt_nesting_iff]

theorem le_nesting_iff {k : ℕ} : k ≤ e.nesting refers ↔ Nests refers k e := by
  cases k with
  | zero => exact iff_of_true (by simp) .zero
  | succ k => rw [← lt_nesting_iff, Nat.cast_succ, ENat.natCast_add_one_le_iff]

/-- **The nesting of a tree is the greatest nesting of a body that it refers to, and one more.** -/
theorem nesting_eq (e : Expr) :
    e.nesting refers = ⨆ (f : Lambda) (_ : e.Projects refers f), (f.body.nesting refers + 1) := by
  refine ENat.eq_of_forall_natCast_le_iff fun a => ?_
  cases a with
  | zero => simp
  | succ k =>
    rw [le_nesting_iff, nests_succ_iff, Nat.cast_succ, ENat.natCast_add_one_le_iff]
    simp only [lt_iSup_iff, exists_prop, ENat.natCast_lt_add_one_iff, le_nesting_iff]

/-- Nesting passes from the children to the node; a marker call adds the body that it refers to. -/
theorem nests_succ_iff_children {k : Nat} :
    Nests refers (k + 1) e ↔ (∃ c ∈ e.children, Nests refers (k + 1) c) ∨
      ∃ reference actuals f, e = .call .project (reference :: actuals) ∧ refers reference f ∧
        Nests refers k f.body := by
  simp only [nests_succ_iff]
  constructor
  · rintro ⟨f, ⟨reference, actuals, hwithin, hf⟩, hk⟩
    cases hwithin with
    | self => exact .inr ⟨reference, actuals, f, rfl, hf, hk⟩
    | child hc hwithin => exact .inl ⟨_, hc, f, ⟨reference, actuals, hwithin, hf⟩, hk⟩
  · rintro (⟨c, hc, f, ⟨reference, actuals, hwithin, hf⟩, hk⟩ | ⟨reference, actuals, f, rfl, hf, hk⟩)
    · exact ⟨f, ⟨reference, actuals, .child hc hwithin, hf⟩, hk⟩
    · exact ⟨f, ⟨reference, actuals, .self, hf⟩, hk⟩

/-- **The nesting depends on what the references of the tree and of its bodies refer to, and on nothing else.** -/
theorem nesting_congr {refers' : Expr → Lambda → Prop}
    (h : ∀ b, LeadsTo refers b e → ∀ f, b.Projects refers f ↔ b.Projects refers' f) :
    e.nesting refers = e.nesting refers' := by
  refine ENat.eq_of_forall_natCast_le_iff fun k => ?_
  rw [le_nesting_iff, le_nesting_iff]
  induction k generalizing e with
  | zero => exact iff_of_true .zero .zero
  | succ k ih =>
    rw [nests_succ_iff, nests_succ_iff]
    refine exists_congr fun f => ?_
    rw [← h e .self f]
    exact and_congr_right fun hf => ih fun b hb => h b (.body hf hb)

theorem MarkerFree.not_projects (h : e.MarkerFree) {f : Lambda} : ¬ e.Projects refers f := by
  rintro ⟨reference, actuals, hwithin, -⟩
  cases h _ hwithin

theorem Projects.child {c : Expr} {f : Lambda} (hc : c ∈ e.children) : c.Projects refers f → e.Projects refers f
  | ⟨reference, actuals, hwithin, hf⟩ => ⟨reference, actuals, .child hc hwithin, hf⟩

namespace EverySite

variable {P : List Expr → Prop}

theorem here (h : e.EverySite refers P) {args : List Expr} (he : e = .call .project args) : P args :=
  h e .self args (he ▸ .self)

theorem body (h : e.EverySite refers P) {f : Lambda} (hf : e.Projects refers f) : f.body.EverySite refers P :=
  fun b hb => h b (.body hf hb)

theorem child (h : e.EverySite refers P) {c : Expr} (hc : c ∈ e.children) : c.EverySite refers P := by
  intro b hb args hargs
  cases hb with
  | self => exact h e .self args (.child hc hargs)
  | body hf hb => exact h b (.body (hf.child hc) hb) args hargs

/-- What is to be checked at a node: a marker call and the body that it leads to, then the children. -/
theorem node (hself : ∀ args, e = .call .project args → P args ∧ ∀ reference actuals, args = reference :: actuals →
    ∀ f, refers reference f → f.body.EverySite refers P) (hchildren : ∀ c ∈ e.children, c.EverySite refers P) :
    e.EverySite refers P := by
  intro b hb
  cases hb with
  | self =>
    intro args hargs
    cases hargs with
    | self => exact (hself args rfl).1
    | child hc hargs => exact hchildren _ hc _ .self args hargs
  | body hf hb =>
    obtain ⟨reference, actuals, hwithin, hf⟩ := hf
    cases hwithin with
    | self => exact (hself _ rfl).2 reference actuals rfl _ hf b hb
    | child hc hwithin => exact (hchildren _ hc).body ⟨reference, actuals, hwithin, hf⟩ b hb

theorem of_markerFree (h : e.MarkerFree) : e.EverySite refers P := by
  intro b hb args hargs
  cases hb with
  | self => cases h _ hargs
  | body hf => exact absurd hf h.not_projects

theorem call {reference : Expr} {actuals : List Expr} {f : Lambda} (hcall : P (reference :: actuals))
    (hf : ∀ g, refers reference g → g = f) (hbody : f.body.EverySite refers P)
    (hchildren : ∀ c ∈ reference :: actuals, c.EverySite refers P) :
    (Marker.call reference actuals).EverySite refers P := by
  refine .node ?_ hchildren
  rintro args heq
  cases heq
  refine ⟨hcall, ?_⟩
  rintro _ _ heq g hg
  cases heq
  rwa [hf g hg]

end EverySite

end Expr

/-! ## An expansion stops where the nesting passes its limit -/

/-- The computation stops at the limit exactly if `P`, and has a value otherwise. -/
def StopsIf {α : Type} (limit : Nat) (P : Prop) (x : Run Unit α) : Prop :=
  (¬ P → ∃ a, x () = .ok a ()) ∧ (P → x () = .error (.error (.cyclicProjection limit)) ())

namespace StopsIf

variable {α β : Type} {limit : Nat} {P P' : Prop}

theorem pure (h : ¬ P) (a : α) : StopsIf limit P (pure a) := ⟨fun _ => ⟨a, rfl⟩, fun hp => absurd hp h⟩

theorem fail (h : P) : StopsIf limit P (Run.fail (.cyclicProjection limit) : Run Unit α) :=
  ⟨fun hp => absurd h hp, fun _ => rfl⟩

theorem congr {x : Run Unit α} (hx : StopsIf limit P x) (h : P ↔ P') : StopsIf limit P' x := propext h ▸ hx

theorem bind {x : Run Unit α} {f : α → Run Unit β} (hx : StopsIf limit P x)
    (hf : ∀ a, x () = .ok a () → StopsIf limit P' (f a)) : StopsIf limit (P ∨ P') (x >>= f) := by
  constructor
  · intro hnot
    obtain ⟨hp, hp'⟩ := not_or.1 hnot
    obtain ⟨a, ha⟩ := hx.1 hp
    rw [bind_of_ok ha]
    exact (hf a ha).1 hp'
  · intro hor
    by_cases hp : P
    · exact bind_of_error (hx.2 hp)
    · obtain ⟨a, ha⟩ := hx.1 hp
      rw [bind_of_ok ha]
      exact (hf a ha).2 (hor.resolve_left hp)

theorem bind_pure {x : Run Unit α} (hx : StopsIf limit P x) (f : α → β) :
    StopsIf limit P (x >>= fun a => (Pure.pure (f a) : Run Unit β)) := by
  constructor
  · intro hnot
    obtain ⟨a, ha⟩ := hx.1 hnot
    exact ⟨f a, bind_of_ok ha⟩
  · intro hp
    exact bind_of_error (hx.2 hp)

/-- A step that succeeds on the way. -/
theorem bind_ok {x : Run Unit α} {f : α → Run Unit β} {a : α} (hx : x () = .ok a ()) (hf : StopsIf limit P (f a)) :
    StopsIf limit P (x >>= f) := by
  unfold StopsIf
  rwa [bind_of_ok hx]

end StopsIf

variable {host : Host Unit}

/-- The arguments of a marker call whose reference, once it is expanded, is resolved to a lambda that takes them. -/
def Settles (host : Host Unit) (args : List Expr) : Prop :=
  ∃ reference actuals, args = reference :: actuals ∧
    ∀ r, Expands host reference r → ∃ f, r.Resolves host f ∧ f.arity = actuals.length

namespace Expansion

theorem expandAllWithin_expands {limit levels : Nat} {es ts : List Expr}
    (h : expandAllWithin host limit levels es () = .ok ts ()) :
    ts.length = es.length ∧ ∀ p ∈ es.zip ts, Expands host p.1 p.2 := by
  have hall : Follows onValues (· = ·) (Pointwise (fun e => Same (Expands host e)) es)
      (expandAllWithin host limit levels es) (expandAllWithin host limit levels es) :=
    Visitor.visitAll_follows es fun e _ => expandWithin_expands host limit (levels + 1) e
  obtain ⟨ts', _, hts, hpointwise, -⟩ := hall.of_ok rfl h
  cases hpointwise.eq_of_same
  exact ⟨hpointwise.lengths.1, hpointwise.forall_of_same⟩

theorem expandAllWithin_stopsIf {limit levels : Nat} {P : Expr → Prop} {es : List Expr}
    (h : ∀ e ∈ es, StopsIf limit (P e) (expandWithin host limit (levels + 1) e)) :
    StopsIf limit (∃ e ∈ es, P e) (expandAllWithin host limit levels es) := by
  induction es with
  | nil => exact .pure (by simp) _
  | cons e es ih =>
    rw [expandAllWithin_cons]
    have htail := ih fun c hc => h c (List.mem_cons_of_mem e hc)
    exact ((h e List.mem_cons_self).bind fun t _ => htail.bind_pure fun ts => t :: ts).congr (by simp)

theorem finish_stopsIf {limit levels : Nat} {body : Expr → Run Unit Expr} {e e' : Expr} {cs : List Expr}
    (hsite : ∀ args, e = .call .project args → Settles host args)
    (hbody : ∀ f, e.Projects (Expr.Denotes host) f →
      StopsIf limit (Expr.Nests (Expr.Denotes host) levels f.body) (body f.body))
    (hrebuilds : Expr.Rebuilds e cs e') (hcs : ∀ p ∈ e.children.zip cs, Expands host p.1 p.2) :
    StopsIf limit (∃ reference actuals f, e = .call .project (reference :: actuals) ∧
      reference.Denotes host f ∧ Expr.Nests (Expr.Denotes host) levels f.body) (finish host body e') := by
  cases hm : Marker.isMarker e with
  | false =>
    rw [finish_of_not_marker host body (hrebuilds.isMarker.trans hm)]
    refine .pure ?_ e'
    rintro ⟨_, _, _, rfl, -⟩
    cases hm
  | true =>
    obtain ⟨args, rfl⟩ := Expr.isMarker_iff.1 hm
    obtain ⟨reference, actuals, rfl, hresolves⟩ := hsite args rfl
    cases hrebuilds with
    | call hlen =>
      match cs, hlen with
      | reference' :: actuals', hlen =>
        -- The reference was expanded with the other children, so it resolves to the lambda that it denotes.
        have hreference : Expands host reference reference' := hcs (reference, reference') List.mem_cons_self
        obtain ⟨f, hf, harity⟩ := hresolves reference' hreference
        have hdenotes : reference.Denotes host f := Expr.denotes_iff.2 ⟨reference', hreference, hf⟩
        have hstops := hbody f ⟨reference, actuals, .self, hdenotes⟩
        have hsplice : StopsIf limit (Expr.Nests (Expr.Denotes host) levels f.body)
            (finish host body (.call .project (reference' :: actuals'))) := by
          obtain ⟨_, hf⟩ := outcome_eq_ok_iff.1 hf
          refine .bind_ok hf ?_
          rw [if_pos (harity.trans (Nat.succ.inj hlen).symm)]
          exact hstops.bind_pure _
        refine hsplice.congr ⟨fun hk => ⟨reference, actuals, f, rfl, hdenotes, hk⟩, ?_⟩
        rintro ⟨_, _, g, heq, hg, hk⟩
        cases heq
        rwa [hdenotes.unique hg]

/-- **An expansion with so many levels stops at its limit exactly if as many bodies nest.** -/
theorem expandWithin_stopsIf (host : Host Unit) (limit : Nat) :
    ∀ (levels : Nat) (e : Expr), e.EverySite (Expr.Denotes host) (Settles host) →
      StopsIf limit (Expr.Nests (Expr.Denotes host) levels e) (expandWithin host limit levels e) := by
  intro levels
  induction levels with
  | zero => exact fun _ _ => .fail .zero
  | succ levels ihlevels =>
    intro e
    induction e using Expr.children_induction with
    | node e ih =>
      intro hsites
      rw [expandWithin_eq]
      refine ((expandAllWithin_stopsIf fun c hc => ih c hc (hsites.child hc)).bind fun cs hcs => ?_).congr
        Expr.nests_succ_iff_children.symm
      obtain ⟨hlen, hexpands⟩ := expandAllWithin_expands hcs
      obtain ⟨e', hrebuilds⟩ := Expr.exists_rebuilds hlen
      rw [Expr.withChildren_eq_ok_iff.2 hrebuilds]
      exact finish_stopsIf (fun _ => hsites.here) (fun f hf => ihlevels f.body (hsites.body hf)) hrebuilds hexpands

end Expansion

namespace Expr

/-- **The limit of an expansion measures nesting.**  If every marker call, in the tree and in the bodies that it leads
to, refers to a lambda that takes its arguments, then the expansion succeeds if its limit allows the nesting of the
tree, and fails at the limit if not; the nesting is finite or not.  The lambda is the one that the reference denotes
once it is expanded.  Where references have no marker calls inside, this is the lambda that they denote as written.  The
host program has no state, for a reference must yield its lambda deterministically (SPEC_FULL.md, section 3). -/
theorem expand_of_nesting (limit : ℕ) {e : Expr} (h : e.EverySite (Denotes host) (Settles host)) :
    (e.nesting (Denotes host) ≤ limit → ∃ edit, e.expand host limit () = .ok edit ()) ∧
      (limit < e.nesting (Denotes host) →
        e.expand host limit () = .error (.error (.cyclicProjection limit)) ()) ∧
      ((∀ b, LeadsTo (Denotes host) b e → ∀ reference actuals,
          Within (.call .project (reference :: actuals)) b → reference.MarkerFree) →
        e.nesting (Denotes host) = e.nesting (Resolves host)) := by
  have hstops := Expansion.expandWithin_stopsIf host limit (limit + 1) e h
  have hfollows := expand_follows host limit e
  refine ⟨fun hle => ?_, fun hlt => ?_, fun hfree => nesting_congr fun b hb f => ?_⟩
  · obtain ⟨t, ht⟩ := hstops.1 (nesting_le_iff.1 hle)
    obtain ⟨edit, hedit⟩ := (hfollows.exists_outcome_ok_iff rfl).2 ⟨t, outcome_eq_ok_iff.2 ⟨(), ht⟩⟩
    obtain ⟨_, hedit⟩ := outcome_eq_ok_iff.1 hedit
    exact ⟨edit, hedit⟩
  · have hstop := outcome_eq_error_iff.2 ⟨(), hstops.2 (lt_nesting_iff.1 hlt)⟩
    obtain ⟨_, hstop⟩ := outcome_eq_error_iff.1 ((hfollows.outcome_error_iff rfl).2 hstop)
    exact hstop
  · constructor
    · rintro ⟨reference, actuals, hwithin, hf⟩
      exact ⟨reference, actuals, hwithin, (denotes_iff_resolves (hfree b hb _ _ hwithin)).1 hf⟩
    · rintro ⟨reference, actuals, hwithin, hf⟩
      exact ⟨reference, actuals, hwithin, (denotes_iff_resolves (hfree b hb _ _ hwithin)).2 hf⟩

/-! ### A lambda that is held, and one that is written in the reference -/

/-- The parameter through a held lambda that returns its argument. -/
def returned : Expr :=
  Marker.call (.captured "g" (.ofLambda ⟨[⟨⟨0, 1⟩, "y", .any⟩], .param ⟨⟨0, 1⟩, "y", .any⟩⟩) ⟨0⟩)
    [.param ⟨⟨0, 0⟩, "x", .any⟩]

/-- Through a held lambda again, which has this body. -/
def returnedByHeld : Expr :=
  Marker.call (.captured "f" (.ofLambda ⟨[⟨⟨0, 0⟩, "x", .any⟩], returned⟩) ⟨1⟩) [.literal (.int 1) ⟨2⟩]

/-- The same with the outer lambda written in the reference. -/
def returnedByWritten : Expr :=
  Marker.call (.lambda [⟨⟨0, 0⟩, "x", .any⟩] returned) [.literal (.int 1) ⟨2⟩]

theorem markerFree_pair {reference arg : Expr} (hreference : reference.MarkerFree) (harg : arg.MarkerFree) :
    ∀ c ∈ [reference, arg], c.MarkerFree := List.forall_mem_cons.2 ⟨hreference, List.forall_mem_singleton.2 harg⟩

theorem nests_held_iff {refers : Expr → Lambda → Prop} {name : String} {f : Lambda} {site : Site} {arg : Expr} {k : Nat}
    (hf : ∀ g, refers (.captured name (.ofLambda f) site) g ↔ g = f) (harg : arg.MarkerFree) :
    Nests refers (k + 1) (Marker.call (.captured name (.ofLambda f) site) [arg]) ↔ Nests refers k f.body := by
  have hchildren : ∀ c ∈ [.captured name (.ofLambda f) site, arg], ¬ Nests refers (k + 1) c := fun c hc hk =>
    have ⟨_, hg, _⟩ := nests_succ_iff.1 hk
    (markerFree_pair (markerFree_leaf rfl rfl) harg c hc).not_projects hg
  rw [nests_succ_iff_children]
  constructor
  · rintro (⟨c, hc, hk⟩ | ⟨_, _, g, heq, hg, hk⟩)
    · exact absurd hk (hchildren c hc)
    · cases heq
      rwa [← (hf g).1 hg]
  · exact fun hk => .inr ⟨_, _, f, rfl, (hf f).2 rfl, hk⟩

theorem everySite_held {refers : Expr → Lambda → Prop} {P : List Expr → Prop} {name : String} {f : Lambda} {site : Site}
    {arg : Expr} (hcall : P [.captured name (.ofLambda f) site, arg])
    (hf : ∀ g, refers (.captured name (.ofLambda f) site) g ↔ g = f) (hbody : f.body.EverySite refers P)
    (harg : arg.MarkerFree) : (Marker.call (.captured name (.ofLambda f) site) [arg]).EverySite refers P :=
  .call hcall (fun g => (hf g).1) hbody fun c hc =>
    .of_markerFree (markerFree_pair (markerFree_leaf rfl rfl) harg c hc)

theorem settles_of_resolves {reference : Expr} {actuals : List Expr} {f : Lambda} (h : reference.MarkerFree)
    (hf : reference.Resolves host f) (harity : f.arity = actuals.length) : Settles host (reference :: actuals) := by
  refine ⟨reference, actuals, rfl, fun r hr => ⟨f, ?_, harity⟩⟩
  rwa [← (expandsTo_iff.1 (expandsTo_of_markerFree h)).unique hr]

theorem settles_held {name : String} {f : Lambda} {site : Site} {arg : Expr} (harity : f.arity = 1) :
    Settles host [.captured name (.ofLambda f) site, arg] :=
  settles_of_resolves (markerFree_leaf rfl rfl) (resolves_held_iff.2 rfl) harity

/-- A lambda whose body calls what the host program returns, which is this lambda. -/
def again : Lambda :=
  ⟨[⟨⟨0, 0⟩, "x", .any⟩], Marker.call (.call (.host ⟨0, "again"⟩) []) [.param ⟨⟨0, 0⟩, "x", .any⟩]⟩

def returning (f : Lambda) : Host Unit := { call := fun _ _ => pure (.ofLambda f) }

theorem denotes_again : Denotes (returning again) (.call (.host ⟨0, "again"⟩) []) again :=
  (denotes_iff_resolves (markerFree_leaf rfl rfl)).2 rfl

theorem nesting_again : again.body.nesting (Denotes (returning again)) = ⊤ := by
  refine ENat.eq_top_iff_forall_ge.2 fun k => le_nesting_iff.2 ?_
  induction k with
  | zero => exact .zero
  | succ k ih => exact .body ⟨_, _, .self, denotes_again⟩ ih

theorem everySite_again : again.body.EverySite (Denotes (returning again)) (Settles (returning again)) := by
  have hsite : ∀ args, Within (.call .project args) again.body →
      args = [.call (.host ⟨0, "again"⟩) [], .param ⟨⟨0, 0⟩, "x", .any⟩] := by
    intro args hargs
    cases hargs with
    | self => rfl
    | child hc hargs => cases markerFree_pair (markerFree_leaf rfl rfl) (markerFree_leaf rfl rfl) _ hc _ hargs
  have hreached : ∀ e b, LeadsTo (Denotes (returning again)) b e → e = again.body → b = again.body := by
    intro e b hb
    induction hb with
    | self => exact id
    | body hf _ ih =>
      rintro rfl
      obtain ⟨reference, actuals, hwithin, hg⟩ := hf
      cases hsite _ hwithin
      exact ih (congrArg Lambda.body (hg.unique denotes_again))
  intro b hb args hargs
  obtain rfl := hreached _ _ hb rfl
  rw [hsite args hargs]
  exact settles_of_resolves (markerFree_leaf rfl rfl) rfl rfl

/-- As many levels as bodies nest are enough, and one less is not; where bodies nest for ever, none are. -/
theorem expand_returnedByHeld :
    (returnedByHeld.EverySite (Denotes quiet) (Settles quiet) ∧ returnedByHeld.nesting (Denotes quiet) = 2 ∧
        (∃ edit, returnedByHeld.expand quiet 2 () = .ok edit ()) ∧
        returnedByHeld.expand quiet 1 () = .error (.error (.cyclicProjection 1)) ()) ∧
      again.body.EverySite (Denotes (returning again)) (Settles (returning again)) ∧
      again.body.nesting (Denotes (returning again)) = ⊤ ∧
      again.body.expand (returning again) 8 () = .error (.error (.cyclicProjection 8)) () := by
  have hsites : returnedByHeld.EverySite (Denotes quiet) (Settles quiet) :=
    everySite_held (settles_held rfl) (fun _ => denotes_held_iff)
      (everySite_held (settles_held rfl) (fun _ => denotes_held_iff) (.of_markerFree (markerFree_leaf rfl rfl))
        (markerFree_leaf rfl rfl)) (markerFree_leaf rfl rfl)
  have hnests : ∀ k, Nests (Denotes quiet) (k + 2) returnedByHeld ↔ k = 0 := by
    intro k
    rw [returnedByHeld, nests_held_iff (fun _ => denotes_held_iff) (markerFree_leaf rfl rfl)]
    show Nests _ (k + 1) returned ↔ _
    rw [returned, nests_held_iff (fun _ => denotes_held_iff) (markerFree_leaf rfl rfl)]
    cases k with
    | zero => exact iff_of_true .zero rfl
    | succ k =>
      refine iff_of_false (fun hk => ?_) (Nat.succ_ne_zero k)
      obtain ⟨_, hg, -⟩ := nests_succ_iff.1 hk
      exact MarkerFree.not_projects (markerFree_leaf rfl rfl) hg
  have hle : returnedByHeld.nesting (Denotes quiet) ≤ (2 : ℕ) :=
    nesting_le_iff.2 fun h => Nat.succ_ne_zero 0 ((hnests 1).1 h)
  have hlt : (1 : ℕ) < returnedByHeld.nesting (Denotes quiet) := lt_nesting_iff.2 ((hnests 0).2 rfl)
  refine ⟨⟨hsites, le_antisymm hle (Order.add_one_le_of_lt hlt), ?_, ?_⟩, everySite_again, nesting_again, ?_⟩
  · exact (expand_of_nesting 2 hsites).1 hle
  · exact (expand_of_nesting 1 hsites).2.1 hlt
  · exact (expand_of_nesting 8 everySite_again).2.1 (nesting_again ▸ ENat.natCast_lt_top 8)

/-- **A body that is written in a reference does not count as it is written.** -/
theorem nesting_written_inline :
    returnedByWritten.EverySite (Resolves quiet)
        (fun args => ∃ reference actuals f, args = reference :: actuals ∧
          reference.Resolves quiet f ∧ f.arity = actuals.length) ∧
      1 < returnedByWritten.nesting (Resolves quiet) ∧
      returnedByWritten.expand quiet 1 () = .ok (.put (.literal (.int 1) ⟨2⟩)) () := by
  have hreturned : returned.EverySite (Resolves quiet) (fun args => ∃ reference actuals f, args = reference :: actuals ∧
      reference.Resolves quiet f ∧ f.arity = actuals.length) :=
    everySite_held ⟨_, _, _, rfl, resolves_held_iff.2 rfl, rfl⟩ (fun _ => resolves_held_iff)
      (.of_markerFree (markerFree_leaf rfl rfl)) (markerFree_leaf rfl rfl)
  have hlambda : ∀ g, Resolves quiet (.lambda [⟨⟨0, 0⟩, "x", .any⟩] returned) g →
      g = ⟨[⟨⟨0, 0⟩, "x", .any⟩], returned⟩ := fun g hg => (Except.ok.inj hg).symm
  have hmarker : ¬ returnedByWritten.MarkerFree := fun h => Bool.noConfusion (h _ .self)
  refine ⟨?_, ?_, expand_of_expandWithin hmarker rfl⟩
  · refine .call ⟨_, _, _, rfl, rfl, rfl⟩ hlambda hreturned
      (List.forall_mem_cons.2 ⟨?_, List.forall_mem_singleton.2 ?_⟩)
    · exact .node (fun args heq => nomatch heq) (List.forall_mem_singleton.2 hreturned)
    · exact .of_markerFree (markerFree_leaf rfl rfl)
  · exact lt_nesting_iff.2 (.body ⟨_, _, .self, rfl⟩ (.body ⟨_, _, .self, resolves_held_iff.2 rfl⟩ .zero))

end Expr

end Splice
