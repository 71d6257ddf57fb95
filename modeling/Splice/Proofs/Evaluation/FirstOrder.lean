import Splice.Proofs.Evaluation.Following
/-!
# First-order trees

A tree is first-order if lambdas occur in it only as lambda arguments of operators, and no captured value holds one.
Then lambdas are not data: every value on the way is plain, and a lambda is applied where it is written, with the scope
that it is written in under its arguments.  What is evaluated for a node are its operands, which are its data and the
bodies of its lambda arguments; projection references are not evaluated and may be anything.

A marker call that was left in the tree is evaluated to an error, its reference before its actual arguments.  So what is
said of evaluations that may come to one is said of trees that are first-order throughout, references included.

The evaluation of such a tree goes no deeper than the tree, and **depends on the bindings of its free parameters alone**
(`Env.evaluateWithin_agree`), in its errors as in its values.
-/
namespace Splice

open Run

variable {σ τ : Type} {s t : Scope}

abbrev Value.Plain (v : Value) : Prop := v.lambdaFree = true

namespace Expr

/-- The body of a lambda node; any other node itself. -/
def underLambda : Expr → Expr
  | .lambda _ body => body
  | e => e

/-- What is evaluated for a node. -/
def operands (e : Expr) : List Expr := e.data ++ e.lambdaArgs.map underLambda

/-- Lambda nodes are lambda arguments of operators, and captured values are plain; references are left aside. -/
inductive FirstOrder : Expr → Prop
  | node {e : Expr} : (∀ params body, e ≠ .lambda params body) →
      (∀ name v site, e = .captured name v site → v.Plain) → (∀ c ∈ e.operands, FirstOrder c) → FirstOrder e

theorem FirstOrder.not_lambda {e : Expr} (h : e.FirstOrder) (params : List Param) (body : Expr) :
    e ≠ .lambda params body := by
  cases h with
  | node hnot _ _ => exact hnot params body

theorem FirstOrder.captured {name : String} {v : Value} {site : Site} (h : FirstOrder (.captured name v site)) :
    v.Plain := by
  cases h with
  | node _ hv _ => exact hv name v site rfl

theorem FirstOrder.operand {e c : Expr} (h : e.FirstOrder) (hc : c ∈ e.operands) : c.FirstOrder := by
  cases h with
  | node _ _ hoperands => exact hoperands c hc

theorem underLambda_eq {e : Expr} (h : ∀ params body, e ≠ .lambda params body) : e.underLambda = e := by
  cases e with
  | lambda params body => exact absurd rfl (h params body)
  | _ => rfl

theorem lambda_or_not (e : Expr) :
    (∃ params body, e = .lambda params body) ∨ ∀ params body, e ≠ .lambda params body := by
  cases e with
  | lambda params body => exact .inl ⟨params, body, rfl⟩
  | _ => exact .inr (by simp)

theorem mem_operands_of_data {e c : Expr} (h : c ∈ e.data) : c ∈ e.operands := List.mem_append_left _ h

theorem mem_operands_of_lambdaArgs {e c : Expr} (h : c ∈ e.lambdaArgs) : c.underLambda ∈ e.operands :=
  List.mem_append_right _ (List.mem_map_of_mem h)

/-! ## Pairs of lambda arguments -/

/-- Two lambda arguments at one place: lambda nodes with related bodies, or no lambda nodes and related. -/
inductive ArgPair (B : List Param → Expr → Expr → Prop) (X : Expr → Expr → Prop) : Expr → Expr → Prop
  | lambda {params : List Param} {body body' : Expr} : B params body body' →
      ArgPair B X (.lambda params body) (.lambda params body')
  | other {c c' : Expr} : (∀ params body, c ≠ .lambda params body) → X c c' → ArgPair B X c c'

/-- Data and lambda arguments of a rebuilt node stand where those of the node stood. -/
theorem Rebuilds.zip_parts {e e' : Expr} {cs : List Expr} (h : Rebuilds e cs e') :
    (∀ p ∈ e.data.zip e'.data, p ∈ e.children.zip cs) ∧
      ∀ p ∈ e.lambdaArgs.zip e'.lambdaArgs, p ∈ e.children.zip cs := by
  have htake : ∀ {es es' : List Expr} {p : Expr × Expr}, p ∈ (es.take 1).zip (es'.take 1) → p ∈ es.zip es' := by
    intro es es' p hp
    cases es <;> cases es' <;> simp_all
  have hdrop : ∀ {es es' : List Expr} {p : Expr × Expr}, p ∈ (es.drop 1).zip (es'.drop 1) → p ∈ es.zip es' := by
    intro es es' p hp
    cases es <;> cases es' <;> simp_all
  have hchildren := h.children
  cases h with
  | @call callee args args' hlen =>
    cases callee with
    | operator op => exact ⟨fun _ hp => htake hp, fun _ hp => hdrop hp⟩
    | host f => exact ⟨fun _ hp => hp, fun _ hp => nomatch hp⟩
    | project => exact ⟨fun _ hp => hdrop hp, fun _ hp => nomatch hp⟩
  | _ => exact ⟨fun p hp => hchildren ▸ hp, fun _ hp => nomatch hp⟩

theorem Rebuilds.length_parts {e e' : Expr} {cs : List Expr} (h : Rebuilds e cs e') :
    e'.data.length = e.data.length ∧ e'.lambdaArgs.length = e.lambdaArgs.length := by
  have hlength := h.length
  have hchildren := h.children
  cases h with
  | @call callee args args' hlen =>
    cases callee with
    | operator op => exact ⟨by simp [data, hlen], by simp [lambdaArgs, hlen]⟩
    | host f => exact ⟨hlen, rfl⟩
    | project => exact ⟨by simp [data, hlen], rfl⟩
  | _ => exact ⟨(congrArg List.length hchildren).trans hlength, rfl⟩

theorem exists_mem_zip {α β : Type} {as : List α} {bs : List β} (hlen : bs.length = as.length) {b : β} (hb : b ∈ bs) :
    ∃ a, (a, b) ∈ as.zip bs := by
  obtain ⟨i, hi, rfl⟩ := List.getElem_of_mem hb
  exact ⟨as[i], List.mem_of_getElem (i := i) (h := by simp; omega) (by simp)⟩

/-- **A node that is rebuilt around first-order parts is first-order.** -/
theorem FirstOrder.rebuilds {e e' : Expr} {cs : List Expr} (he : e.FirstOrder) (h : Rebuilds e cs e')
    (hdata : ∀ p ∈ e.data.zip e'.data, p.2.FirstOrder)
    (hargs : ∀ p ∈ e.lambdaArgs.zip e'.lambdaArgs,
      ArgPair (fun _ _ body' => body'.FirstOrder) (fun _ c' => c'.FirstOrder) p.1 p.2) : e'.FirstOrder := by
  obtain ⟨hlenData, hlenArgs⟩ := h.length_parts
  refine .node (fun params body heq => ?_) (fun name v site heq => ?_) fun c' hc' => ?_
  · subst heq
    cases h with
    | lambda => exact he.not_lambda _ _ rfl
  · subst heq
    cases h with
    | captured => exact he.captured
  · rcases List.mem_append.1 hc' with hc' | hc'
    · obtain ⟨c, hc⟩ := exists_mem_zip hlenData hc'
      exact hdata _ hc
    · obtain ⟨arg', harg', rfl⟩ := List.mem_map.1 hc'
      obtain ⟨arg, harg⟩ := exists_mem_zip hlenArgs harg'
      cases hargs _ harg with
      | lambda hbody => exact hbody
      | other _ harg => rwa [underLambda_eq harg.not_lambda]

end Expr

/-! ## First-order throughout -/

namespace Expr

def isLambda : Expr → Bool
  | .lambda .. => true
  | _ => false

/-- The children of a node that are no lambda arguments; references are among them. -/
def valueArgs : Expr → List Expr
  | .call (.operator _) args => args.take 1
  | e => e.children

def capturedPlain : Expr → Bool
  | .captured _ v _ => v.lambdaFree
  | _ => true

/-- Wherever a lambda node is, also in a reference, it is a lambda argument of an operator; captured values are
plain. -/
def FirstOrderThroughout (e : Expr) : Prop :=
  e.isLambda = false ∧ ∀ n, Within n e → n.capturedPlain = true ∧ ∀ c ∈ n.valueArgs, c.isLambda = false

instance (e : Expr) : Decidable e.FirstOrderThroughout :=
  inferInstanceAs (Decidable (_ ∧ ∀ n, Within n e → n.capturedPlain = true ∧ ∀ c ∈ n.valueArgs, c.isLambda = false))

theorem isLambda_eq_false_iff {e : Expr} : e.isLambda = false ↔ ∀ params body, e ≠ .lambda params body := by
  cases e <;> simp [isLambda]

theorem valueArgs_eq_data {e : Expr} (hmarker : Marker.isMarker e = false) : e.valueArgs = e.data := by
  unfold data
  split
  · rfl
  · cases hmarker
  · rename_i hoperator _
    unfold valueArgs
    split
    · exact absurd rfl (hoperator _ _)
    · rfl

theorem data_subset_valueArgs (e : Expr) : e.data ⊆ e.valueArgs := by
  cases hmarker : Marker.isMarker e with
  | false => exact (valueArgs_eq_data hmarker) ▸ List.Subset.refl _
  | true =>
    obtain ⟨args, rfl⟩ := isMarker_iff.1 hmarker
    exact List.drop_subset 1 args

theorem mem_children {e c : Expr} (h : c ∈ e.children) : c ∈ e.valueArgs ∨ c ∈ e.lambdaArgs := by
  unfold valueArgs lambdaArgs
  split
  · exact List.mem_append.1 ((List.take_append_drop 1 _).symm ▸ h)
  · exact .inl h

namespace FirstOrderThroughout

variable {e c : Expr}

theorem not_lambda (h : e.FirstOrderThroughout) (params : List Param) (body : Expr) : e ≠ .lambda params body :=
  isLambda_eq_false_iff.1 h.1 params body

theorem captured (h : e.FirstOrderThroughout) {name : String} {v : Value} {site : Site}
    (he : e = .captured name v site) : v.Plain := by
  subst he
  exact (h.2 _ .self).1

theorem valueArg (h : e.FirstOrderThroughout) (hc : c ∈ e.valueArgs) (params : List Param) (body : Expr) :
    c ≠ .lambda params body := isLambda_eq_false_iff.1 ((h.2 e .self).2 c hc) params body

/-- **What is evaluated for a node is first-order throughout**: its children, or the bodies of the lambdas among them. -/
theorem child (h : e.FirstOrderThroughout) (hc : c ∈ e.children) : c.underLambda.FirstOrderThroughout := by
  rcases c.lambda_or_not with ⟨params, body, rfl⟩ | hnot
  · have hbody : body ∈ (Expr.lambda params body).valueArgs := List.mem_cons_self
    exact ⟨(h.2 _ (.child hc .self)).2 body hbody, fun n hn => h.2 n (.child hc (.child List.mem_cons_self hn))⟩
  · rw [underLambda_eq hnot]
    exact ⟨isLambda_eq_false_iff.2 hnot, fun n hn => h.2 n (.child hc hn)⟩

end FirstOrderThroughout

/-- Without marker calls there are no references to leave aside. -/
theorem FirstOrder.throughout {e : Expr} (h : e.FirstOrder) (hmarker : e.MarkerFree) : e.FirstOrderThroughout := by
  induction h with
  | @node e hnot hcaptured hoperands ih =>
    have hdata : e.valueArgs = e.data := valueArgs_eq_data (markerFree_iff.1 hmarker).1
    have hplain : e.capturedPlain = true := by
      unfold capturedPlain
      split
      · exact hcaptured _ _ _ rfl
      · rfl
    refine ⟨isLambda_eq_false_iff.2 hnot, all_nodes_iff.2 ⟨⟨hplain, fun c hc => ?_⟩, fun c hc n hn => ?_⟩⟩
    · rw [hdata] at hc
      exact (ih c (mem_operands_of_data hc) (hmarker.child (data_subset e hc))).1
    · rcases mem_children hc with hvalue | harg
      · rw [hdata] at hvalue
        exact (ih c (mem_operands_of_data hvalue) (hmarker.child hc)).2 n hn
      · have hoperand := ih _ (mem_operands_of_lambdaArgs harg)
        rcases c.lambda_or_not with ⟨params, body, rfl⟩ | hlambda
        · have hbody : body.FirstOrderThroughout := hoperand ((hmarker.child hc).child List.mem_cons_self)
          cases hn with
          | self => exact ⟨rfl, by simpa [valueArgs, children] using hbody.1⟩
          | child hmem hn =>
            obtain rfl := List.mem_singleton.1 hmem
            exact hbody.2 n hn
        · rw [underLambda_eq hlambda] at hoperand
          exact (hoperand (hmarker.child hc)).2 n hn

end Expr

/-! ## The rule of a first-order node -/

/-- No source and no host function gives a lambda. -/
structure Env.FirstOrder (env : Env Unit) : Prop where
  rows : ∀ name v, env.source name = .ok v → v.Plain
  calls : ∀ f vs v, env.host.call f vs () = .ok v () → v.Plain

/-- No source gives a lambda, and no host function does that the tree calls, as long as it is given none. -/
structure Env.Feeds (env : Env σ) (e : Expr) : Prop where
  rows : ∀ name v, env.source name = .ok v → v.Plain
  calls : ∀ f args, Expr.Within (.call (.host f) args) e → ∀ vs, (∀ v ∈ vs, v.Plain) →
    ∀ h v h', env.host.call f vs h = .ok v h' → v.Plain

theorem Env.Feeds.child {env : Env σ} {e c : Expr} (h : env.Feeds e) (hc : c ∈ e.children) : env.Feeds c where
  rows := h.rows
  calls f args hf := h.calls f args (.child hc hf)

theorem Env.FirstOrder.feeds {env : Env Unit} (h : env.FirstOrder) (e : Expr) : env.Feeds e where
  rows := h.rows
  calls f _ _ vs _ _ v _ hcall := h.calls f vs v hcall

namespace Evaluation

variable {slack : Halt → Prop} {ev ev' : Expr → Eval σ Value}

/-- The evaluations of two trees follow each other in these scopes; the second tree is no lambda node. -/
def Reads (slack : Halt → Prop) (s t : Scope) (ev ev' : Expr → Eval σ Value) (e e' : Expr) : Prop :=
  (∀ params body, e' ≠ .lambda params body) ∧
    Follows slack (At (· = ·) s t) (Same Value.Plain) (ev e) (ev' e')

def ReadsUnder (slack : Halt → Prop) (s t : Scope) (ev ev' : Expr → Eval σ Value) (params : List Param)
    (body body' : Expr) : Prop :=
  ∀ row, row.Plain → params.length = 1 →
    Follows slack (At (· = ·) (s.push params [row]) (t.push params [row])) (Same Value.Plain) (ev body) (ev' body')

/-- **The rule of a node that is no lambda**, where the node is rebuilt around operands that follow its own. -/
theorem step_plain {env : Env σ} {e e' : Expr} {cs : List Expr} {marker marker' : List Expr → Eval σ Value}
    (hfeeds : env.Feeds e) (hrebuilds : Expr.Rebuilds e cs e') (hnot : ∀ params body, e ≠ .lambda params body)
    (hcaptured : ∀ name v site, e = .captured name v site → v.Plain)
    (hmarker : ∀ args, e = .call .project args →
      Follows slack (At (· = ·) s t) (Same Value.Plain) (marker args) (marker' cs))
    (hdata : ∀ p ∈ e.data.zip e'.data, Follows slack (At (· = ·) s t) (Same Value.Plain) (ev p.1) (ev' p.2))
    (hargs : ∀ p ∈ e.lambdaArgs.zip e'.lambdaArgs,
      Expr.ArgPair (ReadsUnder slack s t ev ev') (Reads slack s t ev ev') p.1 p.2)
    (hs : s.Holds Value.Plain) (hparam : ∀ p, e = .param p → t.get? p.id = s.get? p.id) :
    Follows slack (At (· = ·) s t) (Same Value.Plain) (step env marker ev e) (step env marker' ev' e') := by
  refine step_follows hereditary_lambdaFree hrebuilds hdata (fun p hp => ?_) (fun p heq => ?_) (fun name _ => ?_)
    hcaptured (fun params body heq => absurd heq (hnot params body)) (fun f args heq vs hvs => ?_) hmarker
  · obtain ⟨c, c'⟩ := p
    cases hargs _ hp with
    | lambda hbody => exact follows_pure fun row hrow => Operators.apply_follows fun hlen => hbody row hrow hlen
    | other hc hread =>
      exact Operators.lambdaAt_follows hc hread.1 hread.2 fun f hf => nomatch hf
  · exact Eval.lookup_follows (hparam p heq) fun v hv => hs.get? hv
  · exact follows_attempt (hfeeds.rows name)
  · subst heq
    exact Eval.onHost_follows (follows_attemptOn fun h v h' hcall => hfeeds.calls f args .self vs hvs h v h' hcall)

/-- **The rule of a first-order node that is no marker call.** -/
theorem step_firstOrder {env : Env Unit} (henv : env.FirstOrder) {ev ev' : Expr → Eval Unit Value}
    {marker marker' : List Expr → Eval Unit Value} {e e' : Expr} {cs : List Expr}
    (hrebuilds : Expr.Rebuilds e cs e') (he : e.FirstOrder) (hmarker : Marker.isMarker e = false)
    (hdata : ∀ p ∈ e.data.zip e'.data, Follows onValues (At (· = ·) s t) (Same Value.Plain) (ev p.1) (ev' p.2))
    (hargs : ∀ p ∈ e.lambdaArgs.zip e'.lambdaArgs,
      Expr.ArgPair (ReadsUnder onValues s t ev ev') (Reads onValues s t ev ev') p.1 p.2)
    (hs : s.Holds Value.Plain) (hparam : ∀ p, e = .param p → t.get? p.id = s.get? p.id) :
    Follows onValues (At (· = ·) s t) (Same Value.Plain) (step env marker ev e) (step env marker' ev' e') := by
  refine step_plain (henv.feeds e) hrebuilds he.not_lambda (fun name v site heq => ?_) (fun args heq => ?_) hdata hargs
    hs hparam
  · subst heq
    exact he.captured
  · subst heq
    cases hmarker

/-- **The rule of a node that is first-order throughout**, marker calls included: it is enough that the children follow
each other, or the bodies of those that are lambdas. -/
theorem step_throughout {env : Env σ} {e e' : Expr} {cs : List Expr} (he : e.FirstOrderThroughout)
    (hfeeds : env.Feeds e) (hrebuilds : Expr.Rebuilds e cs e') (hs : s.Holds Value.Plain)
    (hparam : ∀ p, e = .param p → t.get? p.id = s.get? p.id)
    (hchildren : ∀ p ∈ e.children.zip cs,
      Expr.ArgPair (ReadsUnder slack s t ev ev') (Reads slack s t ev ev') p.1 p.2) :
    Follows slack (At (· = ·) s t) (Same Value.Plain) (step env (unexpanded ev) ev e)
      (step env (unexpanded ev') ev' e') := by
  have hvalue : ∀ p ∈ e.children.zip cs, p.1 ∈ e.valueArgs →
      Follows slack (At (· = ·) s t) (Same Value.Plain) (ev p.1) (ev' p.2) := by
    rintro ⟨c, c'⟩ hp hc
    cases hchildren _ hp with
    | lambda => exact absurd rfl (he.valueArg hc _ _)
    | other _ hread => exact hread.2
  refine step_plain hfeeds hrebuilds he.not_lambda (fun _ _ _ heq => he.captured heq) (fun args heq => ?_)
    (fun p hp => ?_) (fun p hp => hchildren p (hrebuilds.zip_parts.2 p hp)) hs hparam
  · subst heq
    exact unexpanded_follows_zip hrebuilds.length fun p hp => hvalue p hp (List.of_mem_zip hp).1
  · exact hvalue p (hrebuilds.zip_parts.1 p hp) (Expr.data_subset_valueArgs e (List.of_mem_zip hp).1)

end Evaluation

/-! ## Free parameters -/

namespace Scope

theorem get?_push (s : Scope) (params : List Param) (args : List Value) (id : ParamId) :
    (s.push params args).get? id =
      (List.lookup id ((params.map Param.id).zip args).reverse).or (s.get? id) := List.lookup_append

theorem lookup_zip_eq_none_iff {α : Type} {params : List Param} {args : List α} (hlen : params.length = args.length)
    {id : ParamId} : List.lookup id ((params.map Param.id).zip args).reverse = none ↔ id ∉ params.map Param.id := by
  have hkeys : (((params.map Param.id).zip args).map Prod.fst) = params.map Param.id :=
    List.map_fst_zip (by simp [hlen])
  rw [List.lookup_eq_none_iff]
  constructor
  · intro h hid
    rw [← hkeys] at hid
    obtain ⟨entry, hentry, rfl⟩ := List.mem_map.1 hid
    simpa using h entry (List.mem_reverse.2 hentry)
  · intro h entry hentry
    rw [bne_iff_ne]
    rintro rfl
    exact h (hkeys ▸ List.mem_map_of_mem (List.mem_reverse.1 hentry))

theorem get?_push_of_not_mem {s : Scope} {params : List Param} {args : List Value} (hlen : params.length = args.length)
    {id : ParamId} (hid : id ∉ params.map Param.id) : (s.push params args).get? id = s.get? id := by
  rw [get?_push, (lookup_zip_eq_none_iff hlen).2 hid]
  rfl

theorem get?_push_congr {s t : Scope} {params : List Param} {args : List Value} (hlen : params.length = args.length)
    {id : ParamId} (h : id ∉ params.map Param.id → t.get? id = s.get? id) :
    (t.push params args).get? id = (s.push params args).get? id := by
  by_cases hid : id ∈ params.map Param.id
  · rw [get?_push, get?_push]
    cases hlookup : List.lookup id ((params.map Param.id).zip args).reverse with
    | some v => rfl
    | none => exact absurd hid ((lookup_zip_eq_none_iff hlen).1 hlookup)
  · rw [get?_push_of_not_mem hlen hid, get?_push_of_not_mem hlen hid, h hid]

end Scope

/-- **Evaluation depends on the bindings of free parameters alone**, and goes no deeper than the tree. -/
theorem Env.evaluateWithin_agree {env : Env σ} (n : Nat) {e : Expr} (he : e.FirstOrderThroughout)
    (hfeeds : env.Feeds e) (hs : s.Holds Value.Plain) (hagree : ∀ id, Expr.Free id e → t.get? id = s.get? id)
    {m : Nat} (hm : e.size ≤ m) :
    Follows Unanswered (At (· = ·) s t) (Same Value.Plain) (env.evaluateWithin n e) (env.evaluateWithin m e) := by
  -- On the depth of the first evaluation: where it is exhausted there is no answer, and nothing to show.
  induction n generalizing e s t m with
  | zero => exact follows_of_slack (show Unanswered .outOfFuel from rfl) _
  | succ n ih =>
    obtain ⟨m, rfl⟩ := Expr.exists_succ_of_size_le hm
    refine Evaluation.step_throughout he hfeeds (Expr.rebuilds_children e) hs (fun p heq => ?_) fun p hp => ?_
    · subst heq
      exact hagree p.id (.param rfl)
    · obtain ⟨c, c'⟩ := p
      obtain ⟨rfl, hchild⟩ := Evaluation.mem_zip_self hp
      have hoperand := he.child hchild
      have hsize := Expr.size_lt_of_mem_children hchild
      have hfree : ∀ id, c.Free id → t.get? id = s.get? id := fun id hid => hagree id (.child he.not_lambda hchild hid)
      rcases c.lambda_or_not with ⟨params, body, rfl⟩ | hnot
      · have hbody : body ∈ (Expr.lambda params body).children := List.mem_cons_self
        have := Expr.size_lt_of_mem_children hbody
        refine .lambda fun row hrow hlen => ?_
        refine ih (e := body) hoperand ((hfeeds.child hchild).child hbody) (hs.push params (by simpa using hrow))
          (fun id hid => ?_) (by omega)
        exact Scope.get?_push_congr hlen fun hnot => hfree id (.lambda hnot hid)
      · rw [Expr.underLambda_eq hnot] at hoperand
        exact .other hnot ⟨hnot, ih hoperand (hfeeds.child hchild) hs hfree (by omega)⟩

end Splice
