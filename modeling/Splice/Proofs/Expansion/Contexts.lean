import Splice.Proofs.Expansion.Limits
/-!
# Marker calls in contexts

A `Context` is a tree with one node left out, at any depth and in any position: among the actual arguments of another
marker call, in its reference, or in the body of a lambda.  **What two trees expand to is what decides their expansion
in a context** (`Context.expandWithin_follows`).  So a tree may be expanded before what it stands in
(`Expr.expand_plug`).

So the shape of a reference makes no difference (`Expr.expand_reference_shapes`).  A held lambda and an expression that
evaluates to this lambda have one expansion.  A lambda that is written in the reference is expanded twice, as a child of
the marker call and as the body that takes its place; but the second time it has no marker calls any more, and the first
time it has one level more than a held lambda.

Where one side expands a tree once more than the other side does, the host program has no state (`Host Unit`).  Only
references are evaluated in an expansion, and a reference must yield its lambda deterministically (SPEC_FULL.md, section
3): with a function that returns another lambda every time, one expansion more or less would be seen in the next one.
-/
namespace Splice

open Run

/-! ## Contexts -/

/-- A node without one of its children. -/
structure Layer where
  node : Expr
  before : List Expr
  after : List Expr
  fits : before.length + 1 + after.length = node.children.length

/-- The layers around a place in a tree, the outermost first. -/
abbrev Context := List Layer

namespace Layer

def plug (l : Layer) (e : Expr) : Expr :=
  (l.node.ofChildren? (l.before ++ e :: l.after)).get <| by
    have := l.fits
    rw [Expr.ofChildren?_isSome, List.length_append, List.length_cons]
    omega

theorem rebuilds_plug (l : Layer) (e : Expr) : Expr.Rebuilds l.node (l.before ++ e :: l.after) (l.plug e) :=
  Expr.ofChildren?_eq_some_iff.1 (Option.some_get _).symm

theorem children_plug (l : Layer) (e : Expr) : (l.plug e).children = l.before ++ e :: l.after :=
  (l.rebuilds_plug e).children

end Layer

namespace Context

def plug (K : Context) (e : Expr) : Expr := K.foldr Layer.plug e

/-- **The nodes of a tree are what stands in its contexts.** -/
theorem within_iff_plug {n e : Expr} : Expr.Within n e ↔ ∃ K : Context, K.plug n = e := by
  constructor
  · intro h
    induction h with
    | self => exact ⟨[], rfl⟩
    | @child e c hc _ ih =>
      obtain ⟨K, rfl⟩ := ih
      obtain ⟨before, after, hchildren⟩ := List.append_of_mem hc
      let l : Layer := ⟨e, before, after, by simp [hchildren]; omega⟩
      have hl := l.rebuilds_plug (K.plug n)
      exact ⟨l :: K, hl.unique (hchildren ▸ e.rebuilds_children)⟩
  · rintro ⟨K, rfl⟩
    induction K with
    | nil => exact .self
    | cons l K ih => exact .child (l.children_plug _ ▸ List.mem_append_right _ List.mem_cons_self) ih

end Context

/-! ## Expansion in a context -/

/-- **Where one tree expands like another, it does so in every context.** -/
theorem Context.expandWithin_follows {σ : Type} {host : Host σ} {limit levels : Nat} {slack : Halt → Prop} {e e' : Expr}
    (h : Follows slack (· = ·) (· = ·) (Expansion.expandWithin host limit (levels + 1) e)
      (Expansion.expandWithin host limit (levels + 1) e')) (K : Context) :
    Follows slack (· = ·) (· = ·) (Expansion.expandWithin host limit (levels + 1) (K.plug e))
      (Expansion.expandWithin host limit (levels + 1) (K.plug e')) := by
  induction K with
  | nil => exact h
  | cons l K ih =>
    refine Expansion.expandWithin_follows (fun cs => ?_) ?_ fun _ => follows_refl _
    · exact ((l.rebuilds_plug _).withChildren_eq cs).trans ((l.rebuilds_plug _).withChildren_eq cs).symm
    · let alike (c c' : Expr) : Prop := Follows slack (· = ·) (· = ·) (Expansion.expandWithin host limit (levels + 1) c)
        (Expansion.expandWithin host limit (levels + 1) c')
      have hsame : ∀ cs, List.Forall₂ alike cs cs := fun cs => List.forall₂_same.2 fun _ _ => follows_refl _
      show List.Forall₂ alike (l.plug (Context.plug K e)).children (l.plug (Context.plug K e')).children
      rw [l.children_plug, l.children_plug]
      exact List.rel_append (hsame l.before) (.cons ih (hsame l.after))

/-! ## The shapes of a reference -/

/-- The reference is this lambda, held, or an expression without marker calls that has it as its value. -/
inductive Expr.RefersTo {σ : Type} (host : Host σ) (f : Lambda) : Expr → Prop
  | held {name : String} {site : Site} : RefersTo host f (.captured name (.ofLambda f) site)
  | evaluated {r : Expr} : r.MarkerFree → Reference.ofExpr r = .invocation r →
      (∀ s, Env.value { host } r s = .ok (.ofLambda f) s) → RefersTo host f r

namespace Expr.RefersTo

variable {σ : Type} {host : Host σ} {f : Lambda} {reference : Expr}

theorem markerFree (h : reference.RefersTo host f) : reference.MarkerFree := by
  cases h with
  | held => exact markerFree_leaf rfl rfl
  | evaluated hfree => exact hfree

theorem resolve_eq (h : reference.RefersTo host f) : reference.resolve host = pure f := by
  cases h with
  | held => rfl
  | evaluated _ hshape hvalue =>
    funext s
    have hblaming : ((Env.value { host } reference).blaming (Reference.blame reference.text)) s =
        .ok (.ofLambda f) s := by
      unfold Run.blaming
      rw [hvalue s]
    rw [Expr.resolve, hshape]
    exact bind_of_ok hblaming

/-- The marker call expands as if the lambda were written in its reference, in expanded form already. -/
theorem expandWithin_call (h : reference.RefersTo host f) (limit levels : Nat) (actuals : List Expr) :
    Expansion.expandWithin host limit (levels + 1) (Marker.call reference actuals) =
      (Expansion.expandAllWithin host limit levels actuals >>= fun as =>
        Expansion.finish host (Expansion.expandWithin host limit levels) (Marker.call (.ofLambda f) as)) := by
  rw [Expansion.expandWithin_call, Expansion.expandWithin_of_markerFree host limit levels h.markerFree, pure_bind]
  congr 1; funext as
  show (reference.resolve host >>= _) = ((Expr.ofLambda f).resolve host >>= _)
  rw [h.resolve_eq]
  rfl

end Expr.RefersTo

namespace Expansion

variable {host : Host Unit} {f : Lambda} {limit levels : Nat} {actuals : List Expr} {t : Expr}

theorem finish_call_eq_ok_iff {body : Expr → Run Unit Expr} {params : List Param} {b : Expr} :
    finish host body (Marker.call (.lambda params b) actuals) () = .ok t () ↔ params.length = actuals.length ∧
      ∃ b', body b () = .ok b' () ∧ (Substitution.ofCall params actuals).replace b' = t := by
  rw [finish_eq_ok_iff]
  constructor
  · rintro ⟨f, b', _, hf, harity, hb, ht⟩
    cases hf
    exact ⟨harity, b', hb, ht⟩
  · rintro ⟨harity, b', hb, ht⟩
    exact ⟨⟨params, b⟩, b', (), rfl, harity, hb, ht⟩

/-- **The written lambda expands to what the held one does**, where that succeeds. -/
theorem expandWithin_written {reference : Expr} (hreference : reference.RefersTo host f) :
    Follows onValues (· = ·) (· = ·) (expandWithin host limit (levels + 1) (Marker.call reference actuals))
      (expandWithin host limit (levels + 1) (Marker.call (.ofLambda f) actuals)) := by
  have hsucceeds : ∀ t, expandWithin host limit (levels + 1) (Marker.call reference actuals) () = .ok t () →
      expandWithin host limit (levels + 1) (Marker.call (.ofLambda f) actuals) () = .ok t () := by
    intro t ht
    rw [hreference.expandWithin_call, bind_eq_ok_iff] at ht
    obtain ⟨as, _, has, ht⟩ := ht
    obtain ⟨harity, b, hb, rfl⟩ := finish_call_eq_ok_iff.1 ht
    -- The body of the held lambda was expanded, so there was a level for it, and there are two for the written one.
    obtain ⟨levels, rfl⟩ : ∃ k, levels = k + 1 := by
      cases levels with
      | zero => cases hb
      | succ k => exact ⟨k, rfl⟩
    obtain ⟨_, _, hb', rfl, -⟩ := (expandWithin_succ host limit (levels + 1) f.body).of_ok rfl hb
    have hfree : b.MarkerFree := markerFree_of_expandWithin hb
    have hlambda : expandWithin host limit (levels + 2) (.ofLambda f) () = .ok (.lambda f.params b) () := by
      rw [Expr.ofLambda, expandWithin_lambda]
      exact bind_of_ok hb'
    rw [expandWithin_call, bind_of_ok hlambda, bind_of_ok has]
    exact finish_call_eq_ok_iff.2 ⟨harity, b, by rw [expandWithin_of_markerFree host limit levels hfree]; rfl, rfl⟩
  rintro s _ rfl
  cases hx : expandWithin host limit (levels + 1) (Marker.call reference actuals) s with
  | ok t s' => exact ⟨t, s', hsucceeds t hx, rfl, rfl⟩
  | error cause s' => exact .inl trivial

end Expansion

namespace Expr

/-- **The shape of a reference does not matter.**  Wherever the marker call stands and whatever the limit is, two
references to one lambda, held or evaluated, have the same expansion or the same failure, over any host program.  If the
expansion succeeds for one of them, it gives the same tree for the lambda written in the reference; this is for host
programs without state, since the references in a lambda that is written there are evaluated at other moments, and a
reference must yield its lambda deterministically (SPEC_FULL.md, section 3). -/
theorem expand_reference_shapes (K : Context) (f : Lambda) (actuals : List Expr) (limit : Nat) :
    (∀ {σ : Type} (host : Host σ) (reference reference' : Expr),
        reference.RefersTo host f → reference'.RefersTo host f →
        (K.plug (Marker.call reference actuals)).expand host limit =
          (K.plug (Marker.call reference' actuals)).expand host limit) ∧
      ∀ (host : Host Unit) (reference : Expr) (edit : Edit), reference.RefersTo host f →
        (K.plug (Marker.call reference actuals)).expand host limit () = .ok edit () →
        ∃ t, edit = .put t ∧ (K.plug (Marker.call (.ofLambda f) actuals)).expand host limit () = .ok (.put t) () := by
  have hmarker : ∀ reference, ¬ (K.plug (Marker.call reference actuals)).MarkerFree := fun reference h =>
    Bool.noConfusion (h _ (Context.within_iff_plug.2 ⟨K, rfl⟩))
  constructor
  · intro σ host reference reference' h h'
    have hcall : Expansion.expandWithin host limit (limit + 1) (Marker.call reference actuals) =
        Expansion.expandWithin host limit (limit + 1) (Marker.call reference' actuals) := by
      rw [h.expandWithin_call, h'.expandWithin_call]
    rw [expand_eq_put (hmarker _), expand_eq_put (hmarker _)]
    exact congrArg _ (Context.expandWithin_follows (hcall ▸ follows_refl _) K).eq
  · intro host reference edit h hedit
    rw [expand_eq_put (hmarker _), ← bind_pure_comp, bind_eq_ok_iff] at hedit
    obtain ⟨t, _, ht, heq⟩ := hedit
    obtain ⟨_, _, ht', rfl, rfl⟩ := (Context.expandWithin_follows (Expansion.expandWithin_written h) K).of_ok rfl ht
    cases heq
    exact ⟨t, rfl, expand_of_expandWithin (hmarker _) ht'⟩

/-- The lambda that adds one. -/
def successor : Lambda :=
  ⟨[⟨⟨0, 0⟩, "n", .any⟩], .binary .add (.param ⟨⟨0, 0⟩, "n", .any⟩) (.literal (.int 1) ⟨0⟩)⟩

/-- In the body of a lambda, and this lambda in the reference of a marker call. -/
def insideReference : Context :=
  [⟨Marker.call (.lambda [⟨⟨0, 1⟩, "m", .any⟩] (.source "rows")) [.source "rows"], [], [.source "rows"], rfl⟩,
    ⟨.lambda [⟨⟨0, 1⟩, "m", .any⟩] (.source "rows"), [], [], rfl⟩]

def successorHost : Host Unit := { call := fun _ _ => pure (.ofLambda successor) }

def successorOfRows : Expr := .binary .add (.source "rows") (.literal (.int 1) ⟨0⟩)

def callInside (reference : Expr) : Expr :=
  insideReference.plug (Marker.call reference [.param ⟨⟨0, 1⟩, "m", .any⟩])

/-- The lambda held, returned by a host function, and written in the reference. -/
theorem expand_callInside :
    (callInside (.captured "f" (.ofLambda successor) ⟨1⟩)).expand successorHost 1 () = .ok (.put successorOfRows) () ∧
      (callInside (.captured "f" (.ofLambda successor) ⟨1⟩)).expand successorHost 1 =
        (callInside (.call (.host ⟨0, "f"⟩) [])).expand successorHost 1 ∧
      (callInside (.ofLambda successor)).expand successorHost 1 () = .ok (.put successorOfRows) () := by
  have hheld : (Expr.captured "f" (.ofLambda successor) ⟨1⟩).RefersTo successorHost successor := .held
  have hevaluated : (Expr.call (.host ⟨0, "f"⟩) []).RefersTo successorHost successor :=
    .evaluated (markerFree_leaf rfl rfl) rfl fun _ => rfl
  obtain ⟨hsame, hwritten⟩ :=
    expand_reference_shapes insideReference successor [.param ⟨⟨0, 1⟩, "m", .any⟩] 1
  have hexpand : (callInside (.captured "f" (.ofLambda successor) ⟨1⟩)).expand successorHost 1 () =
      .ok (.put successorOfRows) () :=
    expand_of_expandWithin (fun h => Bool.noConfusion (h _ .self)) rfl
  refine ⟨hexpand, hsame _ _ _ hheld hevaluated, ?_⟩
  obtain ⟨t, heq, ht⟩ := hwritten _ _ _ hheld hexpand
  cases heq
  exact ht

end Expr

/-! ## What is expanded already

A pass meets the tree in the place and, on the way up, the nodes around it.  The second part does not see whether the
first one was done before; the depth is zero in both, for a place in a tree is never in a body that is put in. -/

namespace Context

def before (K : Context) : List Expr := K.flatMap Layer.before

end Context

namespace Expansion

variable {host : Host Unit} {limit levels : Nat}

/-- **Where a tree does not expand, none of the lists that it stands in does**: it stops there, or before. -/
theorem expandAllWithin_error {e : Expr} {cause : Halt}
    (he : expandWithin host limit (levels + 1) e () = .error cause ()) (before after : List Expr) :
    ∃ cause', expandAllWithin host limit levels (before ++ e :: after) () = .error cause' () ∧
      (cause' = cause ∨ ∃ c ∈ before, expandWithin host limit (levels + 1) c () = .error cause' ()) := by
  induction before with
  | nil => exact ⟨cause, bind_of_error he, .inl rfl⟩
  | cons c before ih =>
    rw [List.cons_append, expandAllWithin_cons]
    cases hc : expandWithin host limit (levels + 1) c () with
    | error cause' => exact ⟨cause', bind_of_error hc, .inr ⟨c, List.mem_cons_self, hc⟩⟩
    | ok t =>
      obtain ⟨cause', hcause, hor⟩ := ih
      refine ⟨cause', ?_, hor.imp_right fun ⟨d, hd, hstop⟩ => ⟨d, List.mem_cons_of_mem c hd, hstop⟩⟩
      rw [bind_of_ok hc, bind_of_error hcause]

theorem expandWithin_plug_error {e : Expr} {cause : Halt}
    (he : expandWithin host limit (levels + 1) e () = .error cause ()) (K : Context) :
    ∃ cause', expandWithin host limit (levels + 1) (K.plug e) () = .error cause' () ∧
      (cause' = cause ∨ ∃ c ∈ K.before, expandWithin host limit (levels + 1) c () = .error cause' ()) := by
  induction K with
  | nil => exact ⟨cause, he, .inl rfl⟩
  | cons l K ih =>
    obtain ⟨inner, hinner, hor⟩ := ih
    obtain ⟨cause', hcause, hor'⟩ := expandAllWithin_error hinner l.before l.after
    refine ⟨cause', ?_, ?_⟩
    · show expandWithin host limit (levels + 1) (l.plug (Context.plug K e)) () = _
      rw [expandWithin_eq, l.children_plug]
      exact bind_of_error hcause
    · rcases hor' with rfl | ⟨c, hc, hstop⟩
      · exact hor.imp_right fun ⟨c, hc, hstop⟩ => ⟨c, List.mem_append_right _ hc, hstop⟩
      · exact .inr ⟨c, List.mem_append_left _ hc, hstop⟩

end Expansion

namespace Expr

/-- **Expansion is compositional.**  A tree may be expanded before the tree that it stands in, wherever it stands there:
the expansion, or the failure, is the same.  If the tree fails by itself, so does every tree that it stands in, with
this failure or with the failure of a tree that is visited before.  The host program has no state: the tree is expanded
apart from the others, and its references must yield their lambdas deterministically (SPEC_FULL.md, section 3). -/
theorem expand_plug (host : Host Unit) (limit : Nat) (K : Context) (e : Expr) :
    (∀ edit, e.expand host limit () = .ok edit () →
        (K.plug e).expanded host limit = (K.plug (edit.result e)).expanded host limit) ∧
      ∀ cause, e.expand host limit () = .error cause () →
        ∃ cause', (K.plug e).expand host limit () = .error cause' () ∧
          (cause' = cause ∨ ∃ c ∈ K.before, c.expand host limit () = .error cause' ()) := by
  constructor
  · intro edit hedit
    obtain ⟨t, _, ht, ⟨rfl, -⟩, -⟩ := (Expr.expand_follows host limit e).of_ok rfl hedit
    have hfree : (edit.result e).MarkerFree := (expand_normalizes hedit).1
    -- Expanded by itself the tree gives what it has become, and what it has become is expanded to itself.
    have halike : Follows strictly (· = ·) (· = ·) (Expansion.expandWithin host limit (limit + 1) e)
        (Expansion.expandWithin host limit (limit + 1) (edit.result e)) := by
      rintro ⟨⟩ ⟨⟩ -
      rw [ht, Expansion.expandWithin_of_markerFree host limit limit hfree]
      exact ⟨edit.result e, (), rfl, rfl, rfl⟩
    rw [expanded_eq, expanded_eq]
    exact (Context.expandWithin_follows halike K).eq
  · intro cause hcause
    obtain ⟨cause', hplug, hor⟩ := Expansion.expandWithin_plug_error (expand_eq_error_iff.1 hcause) K
    refine ⟨cause', expand_eq_error_iff.2 hplug, hor.imp_right fun ⟨c, hc, hstop⟩ => ?_⟩
    exact ⟨c, hc, expand_eq_error_iff.2 hstop⟩

theorem expand_plug_insideReference :
    (insideReference.plug (Marker.call (.captured "f" (.ofLambda successor) ⟨1⟩) [.source "rows"])).expanded
        successorHost 1 = (insideReference.plug successorOfRows).expanded successorHost 1 ∧
      ∃ cause, (insideReference.plug (Marker.call (.captured "f" (.ofLambda successor) ⟨1⟩) [])).expand successorHost 1
        () = .error cause () := by
  have hexpand : (Marker.call (.captured "f" (.ofLambda successor) ⟨1⟩) [.source "rows"]).expand successorHost 1 () =
      .ok (.put successorOfRows) () := expand_of_expandWithin (fun h => Bool.noConfusion (h _ .self)) rfl
  have hstop : (Marker.call (.captured "f" (.ofLambda successor) ⟨1⟩) []).expand successorHost 1 () =
      .error (.error (.arityMismatch 1 0)) () := expand_eq_error_iff.2 rfl
  have hplug := (expand_plug successorHost 1 insideReference _).1 _ hexpand
  obtain ⟨cause, hcause, -⟩ := (expand_plug successorHost 1 insideReference _).2 _ hstop
  rw [Edit.result] at hplug
  exact ⟨hplug, cause, hcause⟩

end Expr

end Splice
