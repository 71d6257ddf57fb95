import Splice.Proofs.Query.Stepwise
/-!
# The backend sees no marker call

Queries are made by wrapping a query of the backend or by a projecting provider, whatever marker calls are in their
trees; they are extended, wrapped again, enumerated and executed in any order, and the program goes on after a failure.
**No request that reaches the backend has a marker call in its tree** (`Query.run_requests`).

There are two ways to the backend.  A projecting provider passes on what it has expanded (`Provider.execute_sends` and
its like).  A query that wraps another one enumerates it as it is if its tree has no marker call, and has the expanded
tree bound behind it otherwise (`Query.rows_sends`).
-/
namespace Splice

open Run

variable {σ α β : Type}

/-- The tree that a request shows to the backend. -/
def Request.tree : Request → Expr
  | .create e | .execute e | .executeRows e | .executeAsync e | .enumerate e => e

/-! ## Computations that send no marker call -/

/-- The requests of the second session are those of the first one, and then others without marker calls. -/
def Adds (s s' : Session σ) : Prop := ∃ sent, s'.requests = sent ++ s.requests ∧ ∀ r ∈ sent, r.tree.MarkerFree

theorem Adds.refl (s : Session σ) : Adds s s := ⟨[], rfl, by simp⟩

theorem Adds.cons {s s' : Session σ} {r : Request} (h : Adds s s') (hr : r.tree.MarkerFree) :
    Adds s { s' with requests := r :: s'.requests } := by
  obtain ⟨sent, hsent, hfree⟩ := h
  refine ⟨r :: sent, ?_, List.forall_mem_cons.2 ⟨hr, hfree⟩⟩
  rw [hsent, List.cons_append]

theorem Adds.trans {s s' s'' : Session σ} (h : Adds s s') (h' : Adds s' s'') : Adds s s'' := by
  obtain ⟨sent, hsent, hfree⟩ := h
  obtain ⟨sent', hsent', hfree'⟩ := h'
  refine ⟨sent' ++ sent, ?_, List.forall_mem_append.2 ⟨hfree', hfree⟩⟩
  rw [hsent', hsent, List.append_assoc]

/-- Wherever the session was before, the computation adds no request with a marker call, and its value is as stated. -/
def Sends (P : α → Prop) (x : QueryM σ α) : Prop :=
  ∀ before : Session σ, Follows strictly (fun s t => s = t ∧ Adds before s) (Same P) x x

namespace Sends

variable {P : α → Prop} {P' : β → Prop}

theorem pure {a : α} (h : P a) : Sends P (Pure.pure a : QueryM σ α) := fun _ => follows_pure ⟨rfl, h⟩

theorem fail (e : Error) : Sends P (Run.fail e : QueryM σ α) := fun _ => follows_fail e

theorem bind {x : QueryM σ α} {f : α → QueryM σ β} (hx : Sends P x) (hf : ∀ a, P a → Sends P' (f a)) :
    Sends P' (x >>= f) := by
  intro before
  refine follows_bind (hx before) ?_
  rintro a _ ⟨rfl, ha⟩
  exact hf a ha before

theorem map {x : QueryM σ α} {f : α → β} (hx : Sends P x) (hf : ∀ a, P a → P' (f a)) : Sends P' (f <$> x) := by
  rw [← bind_pure_comp]
  exact hx.bind fun a ha => .pure (hf a ha)

theorem note (r : Request) (h : r.tree.MarkerFree) : Sends (fun _ => True) (Session.note r : QueryM σ Unit) := by
  rintro before s _ ⟨rfl, hadds⟩
  exact ⟨(), _, rfl, ⟨rfl, trivial⟩, rfl, hadds.cons h⟩

theorem fresh : Sends (fun _ => True) (Session.fresh : QueryM σ Nat) := by
  rintro before s _ ⟨rfl, hadds⟩
  exact ⟨_, _, rfl, ⟨rfl, trivial⟩, rfl, hadds⟩

/-- The host program sends nothing. -/
theorem onHost {x : Run σ α} (h : Follows onValues (· = ·) (Same P) x x) : Sends P (Session.onHost x) := by
  intro before
  refine follows_inside (S := (· = ·)) ?_ ?_ h.self
  · rintro s _ ⟨rfl, -⟩
    rfl
  · rintro s _ h _ ⟨rfl, hadds⟩ rfl
    exact ⟨rfl, hadds⟩

theorem of_ok {x : QueryM σ α} (h : Sends P x) {s s' : Session σ} {a : α} (hx : x s = .ok a s') :
    P a ∧ Adds s s' := by
  obtain ⟨_, _, _, ⟨-, ha⟩, -, hadds⟩ := (h s).of_ok ⟨rfl, .refl s⟩ hx
  exact ⟨ha, hadds⟩

theorem of_error {x : QueryM σ α} (h : Sends P x) {s s' : Session σ} {e : Halt} (hx : x s = .error e s') :
    Adds s s' := by
  obtain ⟨_, -, -, hadds⟩ := (h s).of_error ⟨rfl, .refl s⟩ hx
  exact hadds

end Sends

/-! ## Providers -/

namespace Provider

/-- The provider may be given the tree: a projecting one may be given any. -/
def Takes (p : Provider) (e : Expr) : Prop := p = .backend → e.MarkerFree

theorem takes_projecting (id limit : Nat) (inner : Provider) (e : Expr) : (projecting id limit inner).Takes e :=
  fun h => nomatch h

theorem takes_of_markerFree {p : Provider} {e : Expr} (h : e.MarkerFree) : p.Takes e := fun _ => h

theorem expanded_sends (host : Host σ) (limit : Nat) (e : Expr) : Sends Expr.MarkerFree (expanded host limit e) :=
  (Sends.onHost (Expr.expand_markerFree host limit e)).bind fun _ h => .pure h

end Provider

/-- The query may be enumerated: it wraps another one, or its tree has no marker call. -/
def Query.Safe (q : Query) : Prop := q.provider.Takes q.tree

namespace Provider

theorem query_sends (host : Host σ) (p : Provider) {e : Expr} (h : p.Takes e) :
    Sends (fun q => q.val.provider = p ∧ q.val.Safe) (p.query host e) := by
  induction p generalizing e with
  | backend =>
    refine (Sends.note (.create e) (h rfl)).bind fun _ _ => ?_
    exact Sends.fresh.bind fun _ _ => .pure ⟨rfl, h⟩
  | projecting id limit inner ih =>
    refine (expanded_sends host limit e).bind fun t ht => ?_
    refine (ih (takes_of_markerFree ht)).bind fun q _ => ?_
    exact Sends.fresh.bind fun _ _ => .pure ⟨rfl, takes_projecting id limit inner _⟩

variable (host : Host σ) (b : Backend σ)

theorem execute_sends (p : Provider) {e : Expr} (h : p.Takes e) : Sends (fun _ => True) (p.execute host b e) := by
  induction p generalizing e with
  | backend =>
    refine (Sends.note (.execute e) (h rfl)).bind fun _ _ => ?_
    exact Sends.onHost ((follows_refl (b.execute e)).weaken fun _ _ h => ⟨h, trivial⟩)
  | projecting id limit inner ih =>
    exact (expanded_sends host limit e).bind fun t ht => ih (takes_of_markerFree ht)

theorem listRows_sends (v : Value) : Sends (fun _ => True) (listRows v : QueryM σ (List Value)) := by
  unfold listRows
  split
  · exact .pure trivial
  · exact .fail _

theorem executeRows_sends (p : Provider) {e : Expr} (h : p.Takes e) :
    Sends (fun _ => True) (p.executeRows host b e) := by
  induction p generalizing e with
  | backend =>
    refine (Sends.note (.executeRows e) (h rfl)).bind fun _ _ => ?_
    exact (execute_sends host b .backend h).bind fun v _ => listRows_sends v
  | projecting id limit inner ih =>
    exact (expanded_sends host limit e).bind fun t ht => ih (takes_of_markerFree ht)

theorem executeAsync_sends (p : Provider) {e : Expr} (h : p.Takes e) :
    Sends (fun _ => True) (p.executeAsync host b e) := by
  induction p generalizing e with
  | backend =>
    refine (Sends.note (.executeAsync e) (h rfl)).bind fun _ _ => ?_
    exact execute_sends host b .backend h
  | projecting id limit inner ih =>
    exact (expanded_sends host limit e).bind fun t ht => ih (takes_of_markerFree ht)

end Provider

namespace Query

variable (host : Host σ) (b : Backend σ)

/-! ## Queries -/

/-- **Enumerating a query shows the backend no marker call.** -/
theorem rows_sends : ∀ q : Query, q.Safe → Sends (fun _ => True) (q.rows host b)
  | .plain id tree, h => by
    rw [rows]
    refine (Sends.note (.enumerate tree) (h rfl)).bind fun _ _ => ?_
    exact Provider.executeRows_sends host b .backend h
  | .wrapped id inner wrapper, _ => by
    rw [rows]
    refine (Sends.onHost (Expr.expand_markerFree host wrapper.limit inner.tree)).bind fun edit hedit => ?_
    -- A tree that is kept has no marker call, so the query behind may be enumerated as it is.
    cases edit with
    | keep => exact rows_sends inner (Provider.takes_of_markerFree hedit)
    | put t =>
      refine (Provider.query_sends host wrapper.inner (Provider.takes_of_markerFree hedit)).bind fun q hq => ?_
      exact rows_sends q.val hq.2
termination_by q => q.nesting
decreasing_by
  · simp only [nesting]
    omega
  · have := q.property
    simp only [nesting]
    omega

/-! ## Runs -/

/-- What may be done with a query. -/
inductive Use where
  /-- Another query of its provider. -/
  | query (e : Expr)
  | wrap (limit : Nat)
  | extend (op : QueryOp) (f : Lambda)
  | value (T : Terminal)
  | valueAsync
  /-- A tree of any kind, executed by the query's provider. -/
  | execute (e : Expr)
  | executeAsync (e : Expr)
  | rows
  | stream
  | executeStream (e : Expr)

/-- A query comes of it. -/
def made (x : QueryM σ Query) : QueryM σ (Option Query) := some <$> x

/-- No query comes of it. -/
def consumed {α : Type} (x : QueryM σ α) : QueryM σ (Option Query) := (fun _ => none) <$> x

def Use.perform (q : Query) : Use → QueryM σ (Option Query)
  | .query e => made (Subtype.val <$> q.provider.query host e)
  | .wrap limit => made (q.wrap limit)
  | .extend op f => made (q.extend host op f)
  | .value T => consumed (T.run host b q)
  | .valueAsync => consumed (Query.executeAsync host b q)
  | .execute e => consumed (q.provider.execute host b e)
  | .executeAsync e => consumed (q.provider.executeAsync host b e)
  | .rows => consumed (q.rows host b)
  | .stream => consumed (q.stream host b)
  | .executeStream e => consumed (q.executeStream host b e)

inductive Action where
  /-- Wrap a query of the backend. -/
  | wrap (id : Nat) (tree : Expr) (limit : Nat)
  /-- A query of a new projecting provider in front of the backend, or of any other provider. -/
  | provide (limit : Nat) (inner : Provider) (e : Expr)
  /-- Use the query with this number, counted from the first one that was made. -/
  | onQuery (number : Nat) (use : Use)

def Action.perform (queries : List Query) : Action → QueryM σ (Option Query)
  | .wrap id tree limit => made ((Query.plain id tree).wrap limit)
  | .provide limit inner e => made do
    let id ← Session.fresh
    return (← (Provider.projecting id limit inner).query host e).val
  | .onQuery number use =>
    match queries[number]? with
    | some q => use.perform host b q
    | none => pure none

/-- A program goes on after a failure, with the queries that it had. -/
def run : List Action → List Query → Session σ → List Query × Session σ
  | [], queries, s => (queries, s)
  | a :: actions, queries, s =>
    match a.perform host b queries s with
    | .ok q s' => run actions (queries ++ q.toList) s'
    | .error _ s' => run actions queries s'

/-- The query is one of a projecting provider. -/
def Wrapped (q : Query) : Prop := q.provider ≠ .backend

theorem Wrapped.takes {q : Query} (h : q.Wrapped) (e : Expr) : q.provider.Takes e := fun hp => absurd hp h

theorem made_sends {x : QueryM σ Query} (h : Sends Wrapped x) : Sends (fun new => ∀ q ∈ new, q.Wrapped) (made x) :=
  h.map fun q hq => by simpa using hq

theorem consumed_sends {α : Type} {x : QueryM σ α} (h : Sends (fun _ => True) x) :
    Sends (fun new => ∀ q ∈ new, q.Wrapped) (consumed x) := h.map fun _ _ => by simp

theorem wrap_sends (q : Query) (limit : Nat) : Sends Wrapped (q.wrap limit : QueryM σ Query) := by
  cases q with
  | plain id tree =>
    refine Sends.fresh.bind fun _ _ => ?_
    exact Sends.fresh.bind fun _ _ => .pure Provider.noConfusion
  | wrapped => exact .pure Provider.noConfusion

theorem provider_query_sends {p : Provider} (hp : p ≠ .backend) (e : Expr) :
    Sends Wrapped (Subtype.val <$> p.query host e) :=
  (Provider.query_sends host p fun h => absurd h hp).map fun q hq => by
    rw [Wrapped, hq.1]
    exact hp

theorem Terminal.run_sends {q : Query} (h : q.Wrapped) (T : Terminal) : Sends (fun _ => True) (T.run host b q) := by
  have hexecute : ∀ e, Sends (fun _ => True) (q.provider.execute host b e) := fun e =>
    Provider.execute_sends host b q.provider (h.takes e)
  cases T with
  | count =>
    have hcount : Sends (fun _ => True) (q.count host b) := by
      refine (hexecute _).bind fun v _ => ?_
      cases v with
      | int n => exact .pure trivial
      | _ => exact .fail _
    exact hcount.map fun _ _ => trivial
  | any f =>
    have hany : Sends (fun _ => True) (q.any host b f) := by
      refine (hexecute _).bind fun v _ => ?_
      cases v with
      | bool found => exact .pure trivial
      | _ => exact .fail _
    exact hany.map fun _ _ => trivial
  | _ => exact hexecute _

/-- **Whatever is done with a wrapped query sends no marker call, and a query that comes of it is wrapped.** -/
theorem Use.perform_sends {q : Query} (h : q.Wrapped) (use : Use) :
    Sends (fun new => ∀ q' ∈ new, q'.Wrapped) (use.perform host b q) := by
  have hrows : Sends (fun _ => True) (q.rows host b) := rows_sends host b q (h.takes q.tree)
  cases use with
  | query e => exact made_sends (provider_query_sends host h e)
  | wrap limit => exact made_sends (wrap_sends q limit)
  | extend op f =>
    have hextend := provider_query_sends host h (.operator op q.tree (some f))
    rw [← bind_pure_comp] at hextend
    exact made_sends hextend
  | value T => exact consumed_sends (T.run_sends host b h)
  | valueAsync => exact consumed_sends (Provider.executeAsync_sends host b q.provider (h.takes q.tree))
  | execute e => exact consumed_sends (Provider.execute_sends host b q.provider (h.takes e))
  | executeAsync e => exact consumed_sends (Provider.executeAsync_sends host b q.provider (h.takes e))
  | rows => exact consumed_sends hrows
  | stream => exact consumed_sends (hrows.map fun _ _ => trivial)
  | executeStream e =>
    have hexecute := Provider.executeRows_sends host b q.provider (h.takes e)
    exact consumed_sends (hexecute.map fun _ _ => trivial)

theorem Action.perform_sends {queries : List Query} (h : ∀ q ∈ queries, q.Wrapped) (a : Action) :
    Sends (fun new => ∀ q ∈ new, q.Wrapped) (a.perform host b queries) := by
  cases a with
  | wrap id tree limit => exact made_sends (wrap_sends _ limit)
  | provide limit inner e =>
    refine made_sends (Sends.fresh.bind fun id _ => ?_)
    have hne : Provider.projecting id limit inner ≠ .backend := Provider.noConfusion
    have hquery := provider_query_sends host hne e
    rwa [← bind_pure_comp] at hquery
  | onQuery number use =>
    cases hq : queries[number]? with
    | some q =>
      simp only [perform, hq]
      exact use.perform_sends host b (h q (List.mem_of_getElem? hq))
    | none =>
      simp only [perform, hq]
      exact .pure (by simp)

/-- **Every step keeps the queries wrapped and adds no request with a marker call**, whether it succeeds or not. -/
theorem run_adds (actions : List Action) {queries : List Query} (h : ∀ q ∈ queries, q.Wrapped) (s : Session σ) :
    Adds s (run host b actions queries s).2 := by
  induction actions generalizing queries s with
  | nil => exact .refl s
  | cons a actions ih =>
    have hsends := a.perform_sends host b h
    rw [run]
    cases ha : a.perform host b queries s with
    | ok new s' =>
      obtain ⟨hnew, hadds⟩ := hsends.of_ok ha
      have hqueries : ∀ q ∈ queries ++ new.toList, q.Wrapped :=
        List.forall_mem_append.2 ⟨h, fun q hq => hnew q (Option.mem_toList.1 hq)⟩
      exact hadds.trans (ih hqueries s')
    | error e s' =>
      -- What the step sent before it failed stays sent.
      exact (hsends.of_error ha).trans (ih h s')

/-- **The backend sees no marker call.**  However long a program goes on to make queries, to extend and to consume them,
and whatever fails on the way, no request of it that reaches the backend has a marker call in its tree. -/
theorem run_requests (host : Host σ) (b : Backend σ) (actions : List Action) (s : Session σ) :
    ∃ sent, (run host b actions [] s).2.requests = sent ++ s.requests ∧ ∀ r ∈ sent, r.tree.MarkerFree :=
  run_adds host b actions (by simp) s

end Query

end Splice
