import Splice.Proofs.Evaluation.Terminating
import Splice.Proofs.Expansion.MarkerFree
import Splice.Proofs.Tree.Closed
/-!
# Evaluation after substitution

A tree in a scope has the value that the same tree has in another scope, once its parameters are replaced by trees that
evaluate there to what the first scope binds them to (`Env.evaluateWithin_replace`).  Going under a lambda keeps the two
scopes bridged, as long as the lambda binds neither a parameter that is replaced nor one that is free in a replacement;
this is all that the substitution needs, for it renames nothing.

So **replacing parameters by trees is binding them to the values of these trees** (`Substitution.evaluate_apply`), in
the errors that come of it as in the values.  An occurrence that is evaluated for every row, or for none, makes no
difference, since the replacements leave the host program as they find it.  This has to be asked of them: a replacement
that only has its value in every state of the host program may be seen there (`Substitution.apply_not_binding`).
-/
namespace Splice

open Run

variable {σ : Type} {s t : Scope}

namespace Substitution

def FirstOrder (S : Substitution) : Prop := ∀ id a, S.get? id = some a → a.FirstOrder ∧ a.MarkerFree

/-- A lambda that binds this parameter neither hides a parameter of the substitution nor captures one that is put in. -/
def Spares (S : Substitution) (id : ParamId) : Prop :=
  S.get? id = none ∧ ∀ id' a, S.get? id' = some a → ¬ a.Free id

variable {S : Substitution}

theorem mem_zip_replace {es : List Expr} {c c' : Expr} (h : (c, c') ∈ es.zip (es.map S.replace)) :
    c ∈ es ∧ c' = S.replace c := by
  rw [List.zip_map_right] at h
  obtain ⟨⟨d, d'⟩, hq, heq⟩ := List.mem_map.1 h
  obtain ⟨rfl, hd⟩ := Evaluation.mem_zip_self hq
  cases heq
  exact ⟨hd, rfl⟩

theorem replace_parts {e : Expr} (h : S.replacement? e = none) :
    (∀ c c', (c, c') ∈ e.data.zip (S.replace e).data → c ∈ e.data ∧ c' = S.replace c) ∧
      ∀ c c', (c, c') ∈ e.lambdaArgs.zip (S.replace e).lambdaArgs → c ∈ e.lambdaArgs ∧ c' = S.replace c := by
  obtain ⟨hdata, hargs⟩ := (replace_rebuilds h).zip_parts
  exact ⟨fun c c' hp => ⟨(List.of_mem_zip hp).1, (mem_zip_replace (hdata _ hp)).2⟩,
    fun c c' hp => ⟨(List.of_mem_zip hp).1, (mem_zip_replace (hargs _ hp)).2⟩⟩

theorem replace_firstOrder (hS : S.FirstOrder) {e : Expr} (he : e.FirstOrder) : (S.replace e).FirstOrder := by
  induction he with
  | @node e hnot hcaptured hoperands ih =>
    cases hr : S.replacement? e with
    | some a =>
      obtain ⟨p, rfl, hp⟩ := replacement?_eq_some_iff.1 hr
      rw [replace_of_replacement? hr]
      exact (hS p.id a hp).1
    | none =>
      obtain ⟨hdata, hargs⟩ := replace_parts hr
      have hnode : e.FirstOrder := .node hnot hcaptured hoperands
      refine hnode.rebuilds (replace_rebuilds hr) (fun p hp => ?_) fun p hp => ?_
      · obtain ⟨c, c'⟩ := p
        obtain ⟨hmem, rfl⟩ := hdata c c' hp
        exact ih c (Expr.mem_operands_of_data hmem)
      · obtain ⟨c, c'⟩ := p
        obtain ⟨hmem, rfl⟩ := hargs c c' hp
        have hc := ih _ (Expr.mem_operands_of_lambdaArgs hmem)
        rcases c.lambda_or_not with ⟨params, body, rfl⟩ | hnot
        · exact .lambda hc
        · exact .other hnot (by rwa [Expr.underLambda_eq hnot] at hc)

/-- The replacements are first-order throughout, and no host function gives a lambda that they call. -/
def FirstOrderIn (S : Substitution) (env : Env σ) : Prop :=
  ∀ id a, S.get? id = some a → a.FirstOrderThroughout ∧ env.Feeds a

theorem FirstOrder.firstOrderIn {env : Env Unit} (hS : S.FirstOrder) (henv : env.FirstOrder) : S.FirstOrderIn env :=
  fun id a ha => ⟨(hS id a ha).1.throughout (hS id a ha).2, henv.feeds a⟩

/-- What is put in for a node that is no lambda is none. -/
theorem replace_not_lambda {env : Env σ} (hS : S.FirstOrderIn env) {e : Expr}
    (he : ∀ params body, e ≠ .lambda params body) (params : List Param) (body : Expr) : S.replace e ≠ .lambda params body := by
  cases hr : S.replacement? e with
  | some a =>
    obtain ⟨p, rfl, hp⟩ := replacement?_eq_some_iff.1 hr
    rw [replace_of_replacement? hr]
    exact (hS p.id a hp).1.not_lambda params body
  | none =>
    intro heq
    have hrebuilds := replace_rebuilds hr
    rw [heq] at hrebuilds
    cases hrebuilds
    exact he _ _ rfl

end Substitution

/-- What the first scope binds to a parameter that is replaced is the value of its replacement in the second scope,
which is found without contact with the host program; on other parameters the scopes agree. -/
structure Bridges (env : Env σ) (S : Substitution) (s t : Scope) : Prop where
  kept : ∀ id, S.get? id = none → t.get? id = s.get? id
  replaced : ∀ id a, S.get? id = some a →
    ∃ v, s.get? id = some v ∧ ∀ h m, a.size ≤ m → env.evaluateWithin m a ⟨t, h⟩ = .ok v ⟨t, h⟩

/-- **A call keeps scopes bridged** if the substitution is spared by the parameters of the lambda. -/
theorem Bridges.push {env : Env σ} {S : Substitution} (hS : S.FirstOrderIn env) (h : Bridges env S s t)
    (ht : t.Holds Value.Plain) {params : List Param} {args : List Value} (hlen : params.length = args.length)
    (hspares : ∀ id ∈ params.map Param.id, S.Spares id) :
    Bridges env S (s.push params args) (t.push params args) where
  kept id hid := Scope.get?_push_congr hlen fun _ => h.kept id hid
  replaced id a ha := by
    obtain ⟨v, hv, heval⟩ := h.replaced id a ha
    obtain ⟨hfirst, hfeeds⟩ := hS id a ha
    refine ⟨v, ?_, fun k m hm => ?_⟩
    · rw [Scope.get?_push_of_not_mem hlen, hv]
      intro hid
      rw [(hspares id hid).1] at ha
      cases ha
    · have hagree : ∀ id', a.Free id' → (t.push params args).get? id' = t.get? id' := by
        intro id' hfree
        exact Scope.get?_push_of_not_mem hlen fun hid => (hspares id' hid).2 id a ha hfree
      have hfollows := Env.evaluateWithin_agree m hfirst hfeeds ht hagree hm
      obtain ⟨-, _, hstate, hw⟩ := hfollows.at_ok (heval k m hm)
      cases hstate
      exact hw

/-- **A replaced parameter**: its binding in the first scope is the value of its replacement in the second one. -/
theorem Bridges.param {env : Env σ} {S : Substitution} (h : Bridges env S s t) (hs : s.Holds Value.Plain) {p : Param}
    {a : Expr} (ha : S.get? p.id = some a) (n : Nat) {m : Nat} (hm : a.size ≤ m) :
    Follows Unanswered (At (· = ·) s t) (Same Value.Plain) (env.evaluateWithin (n + 1) (.param p))
      (env.evaluateWithin m a) := by
  obtain ⟨v, hv, heval⟩ := h.replaced p.id a ha
  rintro ⟨s, k⟩ ⟨t, _⟩ ⟨rfl, rfl, rfl⟩
  have hlookup : env.evaluateWithin (n + 1) (.param p) ⟨s, k⟩ = .ok v ⟨s, k⟩ := Eval.lookup_of_get? hv
  rw [hlookup]
  exact ⟨v, _, heval k m hm, ⟨rfl, hs.get? hv⟩, rfl, rfl, rfl⟩

/-- **Substitution keeps answers.** -/
theorem Env.evaluateWithin_replace {env : Env σ} {S : Substitution} (hS : S.FirstOrderIn env) (n : Nat) {e : Expr}
    (he : e.FirstOrderThroughout) (hfeeds : env.Feeds e) (hspares : ∀ id, e.Binds id → S.Spares id)
    (hs : s.Holds Value.Plain) (ht : t.Holds Value.Plain) (hbridges : Bridges env S s t) {m : Nat}
    (hm : (S.replace e).size ≤ m) :
    Follows Unanswered (At (· = ·) s t) (Same Value.Plain) (env.evaluateWithin n e)
      (env.evaluateWithin m (S.replace e)) := by
  -- The bridge is the invariant: every lambda of the tree is spared, so it is there again under a row.
  induction n generalizing e s t m with
  | zero => exact follows_of_slack (show Unanswered .outOfFuel from rfl) _
  | succ n ih =>
    cases hr : S.replacement? e with
    | some a =>
      obtain ⟨p, rfl, hp⟩ := Substitution.replacement?_eq_some_iff.1 hr
      rw [Substitution.replace_of_replacement? hr] at hm ⊢
      exact hbridges.param hs hp n hm
    | none =>
      obtain ⟨m, rfl⟩ := Expr.exists_succ_of_size_le hm
      have hrebuilds := Substitution.replace_rebuilds hr
      refine Evaluation.step_throughout he hfeeds hrebuilds hs (fun p heq => ?_) fun p hp => ?_
      · subst heq
        exact hbridges.kept p.id hr
      · obtain ⟨c, c'⟩ := p
        obtain ⟨hchild, rfl⟩ := Substitution.mem_zip_replace hp
        have hoperand := he.child hchild
        have hsize : (S.replace c).size < (S.replace e).size :=
          Expr.size_lt_of_mem_children (hrebuilds.children ▸ List.mem_map_of_mem hchild)
        rcases c.lambda_or_not with ⟨params, body, rfl⟩ | hnot
        · have hbody : body ∈ (Expr.lambda params body).children := List.mem_cons_self
          have hparams : ∀ id ∈ params.map Param.id, S.Spares id :=
            fun id hid => hspares id ⟨params, body, .child hchild .self, hid⟩
          refine .lambda fun row hrow hlen => ?_
          refine ih (e := body) hoperand ((hfeeds.child hchild).child hbody)
            (fun id hid => hspares id ((hid.child hbody).child hchild)) (hs.push params (by simpa using hrow))
            (ht.push params (by simpa using hrow)) (hbridges.push hS ht (by simpa using hlen) hparams) ?_
          have : (S.replace (.lambda params body)).size = (S.replace body).size + 1 := rfl
          omega
        · rw [Expr.underLambda_eq hnot] at hoperand
          exact .other hnot ⟨Substitution.replace_not_lambda hS hnot,
            ih hoperand (hfeeds.child hchild) (fun id hid => hspares id (hid.child hchild)) hs ht hbridges (by omega)⟩

/-! ## Substitution as binding -/

/-- The evaluation comes to this result and leaves the host program in this state, however much deeper it may go. -/
def Env.Answers (env : Env σ) (e : Expr) (s : Scope) (h : σ) (r : Except Error Value) (h' : σ) : Prop :=
  ∃ depth, ∀ n, depth ≤ n → env.evaluateWithin n e ⟨s, h⟩ = Run.attempt r ⟨s, h'⟩

/-- A result that is found at some depth is the answer. -/
theorem Env.answers_iff {env : Env σ} {e : Expr} {h h' : σ} {r : Except Error Value} :
    env.Answers e s h r h' ↔ ∃ n, env.evaluateWithin n e ⟨s, h⟩ = Run.attempt r ⟨s, h'⟩ := by
  refine ⟨fun ⟨depth, hdepth⟩ => ⟨depth, hdepth depth (Nat.le_refl _)⟩, fun ⟨n, hn⟩ => ⟨n, fun m hm => ?_⟩⟩
  exact (evaluateWithin_deeper (fun _ => rfl) rfl hm e s).at_attempt (fun _ => Halt.noConfusion) hn

theorem Env.answers_ok_iff {env : Env σ} {e : Expr} {h h' : σ} {v : Value} :
    env.Answers e s h (.ok v) h' ↔ ∃ n, env.evaluateWithin n e ⟨s, h⟩ = .ok v ⟨s, h'⟩ := answers_iff

theorem Env.Answers.unique {env : Env σ} {e : Expr} {h h₁ h₂ : σ} {r₁ r₂ : Except Error Value}
    (hr₁ : env.Answers e s h r₁ h₁) (hr₂ : env.Answers e s h r₂ h₂) : r₁ = r₂ ∧ h₁ = h₂ := by
  obtain ⟨n, hn⟩ := hr₁
  obtain ⟨m, hm⟩ := hr₂
  have heq := (hn (max n m) (Nat.le_max_left n m)).symm.trans (hm (max n m) (Nat.le_max_right n m))
  cases r₁ <;> cases r₂ <;> cases heq <;> exact ⟨rfl, rfl⟩

/-- Trees that come to the same at every depth, one level apart, have the same answers. -/
theorem Env.answers_congr {env : Env σ} {e e' : Expr} {h : σ}
    (heq : ∀ n, env.evaluateWithin (n + 1) e ⟨s, h⟩ = env.evaluateWithin (n + 2) e' ⟨s, h⟩) (r : Except Error Value)
    (h' : σ) : env.Answers e s h r h' ↔ env.Answers e' s h r h' := by
  constructor
  · rintro ⟨depth, hdepth⟩
    refine ⟨depth + 2, fun n hn => ?_⟩
    obtain ⟨n, rfl⟩ := Nat.exists_eq_add_of_le' (Nat.le_of_add_left_le hn)
    exact (heq n).symm.trans (hdepth (n + 1) (by omega))
  · rintro ⟨depth, hdepth⟩
    refine ⟨depth + 1, fun n hn => ?_⟩
    obtain ⟨n, rfl⟩ := Nat.exists_eq_add_of_le' (Nat.le_of_add_left_le hn)
    exact (heq n).trans (hdepth (n + 2) (by omega))

/-- **A value of a first-order tree is plain, and is found within the size of the tree.** -/
theorem Env.Answers.of_size {env : Env σ} {e : Expr} {h h' : σ} {v : Value} (hv : env.Answers e s h (.ok v) h')
    (he : e.FirstOrderThroughout) (hfeeds : env.Feeds e) (hs : s.Holds Value.Plain) :
    v.Plain ∧ ∀ n, e.size ≤ n → env.evaluateWithin n e ⟨s, h⟩ = .ok v ⟨s, h'⟩ := by
  obtain ⟨depth, hdepth⟩ := hv
  have hdepth : env.evaluateWithin depth e ⟨s, h⟩ = .ok v ⟨s, h'⟩ := hdepth depth (Nat.le_refl _)
  have hagree : ∀ n, e.size ≤ n → Follows Unanswered (At (· = ·) s s) (Same Value.Plain) (env.evaluateWithin depth e)
      (env.evaluateWithin n e) := fun n hn => evaluateWithin_agree depth he hfeeds hs (fun _ _ => rfl) hn
  refine ⟨((hagree e.size (Nat.le_refl _)).at_ok hdepth).1, fun n hn => ?_⟩
  obtain ⟨-, _, heq, hn⟩ := (hagree n hn).at_ok hdepth
  cases heq
  exact hn

namespace Substitution

variable {env : Env σ} {S : Substitution} {values : ParamId → Value}

/-- The parameters of the substitution, bound to these values. -/
def bindings (S : Substitution) (values : ParamId → Value) : Scope :=
  S.entries.map fun entry => (entry.1, values entry.1)

theorem get?_bindings (S : Substitution) (values : ParamId → Value) (s : Scope) (id : ParamId) :
    Scope.get? (S.bindings values ++ s) id = ((S.get? id).map fun _ => values id).or (s.get? id) := by
  obtain ⟨entries⟩ := S
  induction entries with
  | nil => rfl
  | cons entry entries ih =>
    obtain ⟨key, a⟩ := entry
    by_cases hkey : id = key
    · subst hkey
      simp [bindings, Scope.get?, get?]
    · have hbeq : (id == key) = false := beq_false_of_ne hkey
      simpa [bindings, Scope.get?, get?, List.lookup_cons, hbeq] using ih

theorem exists_get?_of_mem_bindings {binding : ParamId × Value} (h : binding ∈ S.bindings values) :
    binding.2 = values binding.1 ∧ ∃ a, S.get? binding.1 = some a := by
  obtain ⟨⟨key, a⟩, hmem, rfl⟩ := List.mem_map.1 h
  refine ⟨rfl, Option.ne_none_iff_exists'.1 fun hnone => ?_⟩
  simpa using List.lookup_eq_none_iff.1 hnone (key, a) hmem

/-- **Rebinding is binding.**  Where the replacements have values, in every state of the host program, and leave it in
this state, the tree with its parameters replaced has the result of the tree in the scope that binds them to these
values. -/
theorem evaluate_apply {b : Expr} (hb : b.FirstOrderThroughout) (hfeeds : env.Feeds b) (hS : S.FirstOrderIn env)
    (hs : s.Holds Value.Plain) (hspares : ∀ id, b.Binds id → S.Spares id) (values : ParamId → Value)
    (hvalues : ∀ id a, S.get? id = some a → ∀ h, env.Answers a s h (.ok (values id)) h) (h : σ) :
    ∃ t, S.apply b = .ok t ∧
      ∃ r h', env.Answers t s h r h' ∧ env.Answers b (S.bindings values ++ s) h r h' := by
  have hfound := fun id a ha h => (hvalues id a ha h).of_size (hS id a ha).1 (hS id a ha).2 hs
  have hplain : Scope.Holds Value.Plain (S.bindings values ++ s) := by
    intro binding hmem
    rcases List.mem_append.1 hmem with hmem | hmem
    · obtain ⟨hvalue, a, ha⟩ := exists_get?_of_mem_bindings hmem
      exact hvalue ▸ (hfound _ a ha h).1
    · exact hs _ hmem
  have hbridges : Bridges env S (S.bindings values ++ s) s := by
    refine ⟨fun id hid => ?_, fun id a ha => ⟨values id, ?_, fun h => (hfound id a ha h).2⟩⟩
    · rw [get?_bindings, hid]
      rfl
    · rw [get?_bindings, ha]
      rfl
  obtain ⟨r, h', -, hresult⟩ := Env.exists_result_height hb hfeeds hplain h
  have hreplace : ∀ m, (S.replace b).size ≤ m → env.evaluateWithin m (S.replace b) ⟨s, h⟩ = Run.attempt r ⟨s, h'⟩ :=
    fun m hm => (Env.evaluateWithin_replace hS b.height hb hfeeds hspares hplain hs hbridges hm).at_attempt
      (fun _ => Halt.noConfusion) (hresult b.height (Nat.le_refl _))
  exact ⟨S.replace b, S.apply_eq b, r, h', ⟨_, hreplace⟩, ⟨_, hresult⟩⟩

end Substitution

/-! ### A square that is added to every row -/

/-- Two rows under every name. -/
def Expr.twoRows : Env Unit where
  host := { call := fun _ _ => pure .null }
  sources := some fun _ => .ok (.list [.int 1, .int 2])

namespace Substitution

def row : Param := ⟨⟨0, 0⟩, "row", .any⟩

def side : Param := ⟨⟨1, 0⟩, "side", .any⟩

def area : Param := ⟨⟨1, 1⟩, "area", .any⟩

/-- The rows, each with what `area` is bound to added. -/
def enlarge (area : Expr) : Expr :=
  .operator .select (.source "rows") (some ⟨[row], .binary .add (.param row) area⟩)

def square : Expr := .binary .multiply (.param side) (.param side)

def squareForArea : Substitution := .ofList [(area.id, square)]

theorem evaluate_apply_square :
    squareForArea.apply (enlarge (.param area)) = .ok (enlarge square) ∧
      Expr.twoRows.Answers (enlarge square) [(side.id, .int 3)] () (.ok (.list [.int 10, .int 11])) () := by
  have hget : ∀ id a, squareForArea.get? id = some a → id = area.id ∧ a = square := fun id a ha => by
    simpa [squareForArea, ofList] using mem_of_lookup ha
  have hfeeds : ∀ e, Expr.twoRows.Feeds e := by
    refine fun e => ⟨fun name v hv => ?_, fun f args _ vs _ h v h' hv => ?_⟩
    · cases hv
      rfl
    · cases hv
      rfl
  have hfirst : squareForArea.FirstOrderIn Expr.twoRows := by
    intro id a ha
    obtain ⟨-, rfl⟩ := hget id a ha
    exact ⟨by decide, hfeeds square⟩
  have hscope : Scope.Holds Value.Plain [(side.id, .int 3)] := List.forall_mem_singleton.2 rfl
  have hspares : ∀ id, (enlarge (.param area)).Binds id → squareForArea.Spares id := by
    intro id hid
    have hrow : ∀ n, Expr.Within n (enlarge (.param area)) → ∀ id ∈ n.formals, id = row.id := by decide
    obtain rfl := Expr.forall_binds_iff.2 hrow id hid
    refine ⟨rfl, fun id a ha => ?_⟩
    obtain ⟨-, rfl⟩ := hget id a ha
    decide
  have hvalues : ∀ id a, squareForArea.get? id = some a →
      ∀ h, Expr.twoRows.Answers a [(side.id, .int 3)] h (.ok (.int 9)) h := by
    intro id a ha h
    obtain ⟨-, rfl⟩ := hget id a ha
    refine ⟨2, fun n hn => ?_⟩
    obtain ⟨n, rfl⟩ := Nat.exists_eq_add_of_le' hn
    rfl
  obtain ⟨t, ht, r, h', hreplaced, depth, hbound⟩ :=
    evaluate_apply (by decide) (hfeeds _) hfirst hscope hspares (fun _ => .int 9) hvalues ()
  have hvalue : EStateM.Result.ok _ _ = Run.attempt r _ := hbound (depth + 4) (Nat.le_add_right _ _)
  cases (apply_eq _ _).symm.trans ht
  cases r with
  | error cause => cases hvalue
  | ok v =>
    cases hvalue
    exact ⟨apply_eq _ _, hreplaced⟩

end Substitution

/-! ### A replacement that leaves a trace -/

/-- A program with a counter: `tick` counts its calls and is always one, `ticks` is the number of these calls. -/
def Env.counting : Env Nat where
  host := { call := fun f _ n => if f.slot = 0 then .ok (.int 1) (n + 1) else .ok (.int (Int64.ofNat n)) n }

namespace Expr

def tick : Expr := .call (.host ⟨0, "tick"⟩) []

def ticks : Expr := .call (.host ⟨1, "ticks"⟩) []

def isOne (e : Expr) : Expr := .compare .eq e (.literal (.int 1) ⟨0⟩)

end Expr

namespace Substitution

/-- The number of ticks, once `side` was found to be one. -/
def ticksAfterSide : Expr := .cond (.isOne (.param side)) .ticks (.literal (.int 0) ⟨0⟩)

def tickForSide : Substitution := .ofList [(side.id, .tick)]

/-- **A value is not enough.**  The replacement has the value one whenever it is evaluated, but the host program sees
that it was. -/
theorem apply_not_binding :
    ticksAfterSide.FirstOrderThroughout ∧ Env.counting.Feeds ticksAfterSide ∧ tickForSide.FirstOrderIn Env.counting ∧
    (∀ id, ticksAfterSide.Binds id → tickForSide.Spares id) ∧
    (∀ id a, tickForSide.get? id = some a → ∀ h, Env.counting.Answers a [] h (.ok (.int 1)) (h + 1)) ∧
    (∃ t, tickForSide.apply ticksAfterSide = .ok t ∧ Env.counting.Answers t [] 0 (.ok (.int 1)) 1) ∧
    Env.counting.Answers ticksAfterSide (tickForSide.bindings fun _ => .int 1) 0 (.ok (.int 0)) 0 := by
  have hget : ∀ id a, tickForSide.get? id = some a → a = .tick := fun id a ha =>
    (by simpa [tickForSide, ofList] using mem_of_lookup ha : id = side.id ∧ a = .tick).2
  have hfeeds : ∀ e, Env.counting.Feeds e := by
    refine fun e => ⟨fun name v hv => ?_, fun f args _ vs _ h v h' hv => ?_⟩
    · cases hv
    · simp only [Env.counting] at hv
      split at hv <;> cases hv <;> rfl
  refine ⟨by decide, hfeeds _, fun id a ha => ?_, fun id hid => ?_, fun id a ha h => ?_,
    ⟨_, apply_eq _ _, Env.answers_ok_iff.2 ⟨4, rfl⟩⟩, Env.answers_ok_iff.2 ⟨4, rfl⟩⟩
  · obtain rfl := hget id a ha
    exact ⟨by decide, hfeeds _⟩
  · have hnone : ∀ n, Expr.Within n ticksAfterSide → ∀ id ∈ n.formals, False := by decide
    exact (Expr.forall_binds_iff.2 hnone id hid).elim
  · obtain rfl := hget id a ha
    exact Env.answers_ok_iff.2 ⟨1, rfl⟩

end Substitution

end Splice
