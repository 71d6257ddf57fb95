import Splice.Proofs.Query.Sending
import Splice.Proofs.Stopping
/-!
# Wrappers are shared and do not nest

Queries are made by a backend, by a projecting provider in front of it, by wrapping a query, and by deriving a query
from one that is there: its provider is given another tree, or its own tree under an operator.  However these are mixed,
**a wrapped query wraps a query of the backend, and its provider stands directly in front of the backend**; it was
wrapped, or comes from a projecting provider, and wrapping it once more gives the query that it was, with the limit that
it had.  What is derived from it has its provider, and a tree without marker calls (`Query.reachable_shares`).

A step that makes a query does one of six things (`Query.Makes`), and each of them has these properties.  That a
provider is shared, and not one like it, is a matter of identities: `Query.Apart` says which are new.
-/
namespace Splice

open Run

variable {σ : Type}

namespace Query

/-! ## Ways to make a query -/

/-- How a query is made, and of which query. -/
inductive Origin where
  /-- The backend binds a tree. -/
  | create (e : Expr)
  /-- A new projecting provider in front of the backend binds a tree. -/
  | provide (limit : Nat) (e : Expr)
  /-- The provider of a query binds a tree. -/
  | bind (source : Query) (e : Expr)
  | wrap (source : Query) (limit : Nat)
  | extend (source : Query) (op : QueryOp) (f : Lambda)

namespace Origin

def make (host : Host σ) : Origin → QueryM σ Query
  | create e => Subtype.val <$> Provider.backend.query host e
  | provide limit e => Query.provide host limit e
  | bind source e => Subtype.val <$> source.provider.query host e
  | wrap source limit => source.wrap limit
  | extend source op f => source.extend host op f

def source? : Origin → Option Query
  | create _ | provide .. => none
  | bind source _ | wrap source _ | extend source .. => some source

/-- The query that another one is derived from. -/
def derivedFrom? : Origin → Option Query
  | bind source _ | extend source .. => some source
  | create _ | provide .. | wrap .. => none

/-- The query is wrapped as it is made, or a projecting provider makes it. -/
def Projects : Origin → Prop
  | create _ => False
  | provide .. | wrap .. => True
  | bind source _ | extend source .. => source.provider ≠ .backend

/-- A query that is wrapped already is wrapped again. -/
def Rewraps : Origin → Prop
  | wrap source _ => source.isWrapped = true
  | _ => False

/-- A provider comes with the query. -/
def BringsProvider : Origin → Prop
  | provide .. => True
  | wrap source _ => source.isWrapped = false
  | _ => False

end Origin

/-- A query and how it was made. -/
structure Made where
  query : Query
  origin : Origin

/-- What a program can have made, in the order in which it was made, and the session that it has come to.  It goes on
after a failure. -/
inductive Reachable (host : Host σ) : List Made → Session σ → Prop
  | start (s : Session σ) : Reachable host [] s
  | made {made : List Made} {s s' : Session σ} {o : Origin} {q : Query} : Reachable host made s →
      (∀ source ∈ o.source?, source ∈ made.map Made.query) → o.make host s = .ok q s' →
      Reachable host (made ++ [⟨q, o⟩]) s'
  | failed {made : List Made} {s s' : Session σ} {o : Origin} {halt : Halt} : Reachable host made s →
      (∀ source ∈ o.source?, source ∈ made.map Made.query) → o.make host s = .error halt s' → Reachable host made s'

/-! ## Flat wrappers, shared wrappers -/

/-- If the query is wrapped, it wraps one that is not, and its provider has the backend behind it. -/
def Flat (q : Query) : Prop :=
  (∀ inner ∈ q.inner?, inner.isWrapped = false) ∧ ∀ w ∈ q.wrapper?, w.inner = .backend

/-- What holds of a query because of the way in which it was made. -/
structure Made.Sound (m : Made) : Prop where
  flat : m.query.Flat
  isWrapped_iff : m.query.isWrapped = true ↔ m.origin.Projects
  /-- Wrapping puts the source under a wrapper with the limit that is asked for. -/
  wrapped : ∀ q limit, m.origin = .wrap q limit → q.isWrapped = false →
    m.query.inner? = some q ∧ ∃ w, m.query.wrapper? = some w ∧ w.limit = limit
  /-- Wrapping once more changes nothing, whatever the limit. -/
  rewrapped : ∀ q limit, m.origin = .wrap q limit → q.isWrapped = true → m.query = q
  provided : ∀ limit e, m.origin = .provide limit e →
    m.query.tree.MarkerFree ∧ ∃ w, m.query.wrapper? = some w ∧ w.limit = limit
  derived : ∀ q, m.origin.derivedFrom? = some q → q.isWrapped = true →
    m.query.wrapper? = q.wrapper? ∧ m.query.tree.MarkerFree

/-- Of two queries, made in this order, the later one is another object, unless it was only wrapped again; and if a
provider came with it, that is another one, too. -/
def Apart (m m' : Made) : Prop :=
  (¬ m'.origin.Rewraps → m'.query.id ≠ m.query.id) ∧
    (m'.origin.BringsProvider → ∀ w ∈ m.query.wrapper?, ∀ w' ∈ m'.query.wrapper?, w'.id ≠ w.id)

structure Shares (made : List Made) : Prop where
  sound : ∀ m ∈ made, m.Sound
  apart : made.Pairwise Apart

/-! ## One step -/

/-- **What a step can do** that makes a query with the identities from `n` on. -/
inductive Makes (n : Nat) : Origin → Query → Nat → Prop
  | created {e : Expr} : Makes n (.create e) (.plain n e) (n + 1)
  | provided {limit : Nat} {e t : Expr} : t.MarkerFree →
      Makes n (.provide limit e) (.wrapped (n + 2) (.plain (n + 1) t) ⟨n, limit, .backend⟩) (n + 3)
  | wrapped {id : Nat} {tree : Expr} {limit : Nat} :
      Makes n (.wrap (.plain id tree) limit) (.wrapped (n + 1) (.plain id tree) ⟨n, limit, .backend⟩) (n + 2)
  | rewrapped {id : Nat} {inner : Query} {w : Wrapper} {limit : Nat} : (Query.wrapped id inner w).Flat →
      Makes n (.wrap (.wrapped id inner w) limit) (.wrapped id inner w) n
  | derivedPlain {o : Origin} {id : Nat} {tree e : Expr} : o.derivedFrom? = some (.plain id tree) →
      Makes n o (.plain n e) (n + 1)
  | derivedWrapped {o : Origin} {id : Nat} {inner : Query} {w : Wrapper} {t : Expr} :
      o.derivedFrom? = some (.wrapped id inner w) → w.inner = .backend → t.MarkerFree →
      Makes n o (.wrapped (n + 1) (.plain n t) w) (n + 2)

theorem expanded_result (host : Host σ) (limit : Nat) (e : Expr) (s : Session σ) :
    (∃ t h, t.MarkerFree ∧ Provider.expanded host limit e s = .ok t { s with hostState := h }) ∨
      ∃ halt h, Provider.expanded host limit e s = .error halt { s with hostState := h } := by
  cases hx : Provider.expanded host limit e s with
  | ok t s' =>
    obtain ⟨_, _, ht, rfl, -⟩ := (provider_expanded_follows host limit e).of_ok rfl hx
    obtain ⟨_, _, _, ⟨-, hfree⟩, -⟩ := (Expr.expanded_markerFree host limit e).of_ok rfl ht
    obtain ⟨_, _, hexpand, hresult⟩ := bind_eq_ok_iff.1 hx
    obtain ⟨h, -, rfl⟩ := inside_eq_ok_iff.1 hexpand
    cases hresult
    exact .inl ⟨_, h, hfree, rfl⟩
  | error halt s' =>
    rcases bind_eq_error_iff.1 hx with hexpand | ⟨_, _, -, hresult⟩
    · obtain ⟨h, -, rfl⟩ := inside_eq_error_iff.1 hexpand
      exact .inr ⟨halt, h, rfl⟩
    · cases hresult

theorem query_of_expanded {host : Host σ} {w : Wrapper} (hw : w.inner = .backend) {e t : Expr} {s s' : Session σ}
    (he : Provider.expanded host w.limit e s = .ok t s') : (Subtype.val <$> w.provider.query host e) s =
      .ok (.wrapped (s'.issued + 1) (.plain s'.issued t) w)
        ⟨.create t :: s'.requests, s'.issued + 2, s'.hostState⟩ := by
  obtain ⟨id, limit, inner⟩ := w
  obtain rfl : inner = .backend := hw
  rw [← bind_pure_comp, Wrapper.provider, Provider.query, bind_assoc]
  exact bind_of_ok he

/-- **What a projecting provider in front of the backend makes**: a wrapped query of an expanded tree, or nothing. -/
theorem query_result (host : Host σ) {w : Wrapper} (hw : w.inner = .backend) (e : Expr) (s : Session σ) :
    (∃ t h, t.MarkerFree ∧ (Subtype.val <$> w.provider.query host e) s =
      .ok (.wrapped (s.issued + 1) (.plain s.issued t) w) ⟨.create t :: s.requests, s.issued + 2, h⟩) ∨
      ∃ halt h, (Subtype.val <$> w.provider.query host e) s = .error halt { s with hostState := h } := by
  rcases expanded_result host w.limit e s with ⟨t, h, hfree, hexpanded⟩ | ⟨halt, h, hexpanded⟩
  · exact .inl ⟨t, h, hfree, query_of_expanded hw hexpanded⟩
  · refine .inr ⟨halt, h, ?_⟩
    rw [← bind_pure_comp, Wrapper.provider, Provider.query, bind_assoc]
    exact bind_of_error hexpanded

theorem derive_ok {host : Host σ} {source q : Query} (hflat : source.Flat) {o : Origin}
    (ho : o.derivedFrom? = some source) {e : Expr} {s s' : Session σ}
    (h : (Subtype.val <$> source.provider.query host e) s = .ok q s') : Makes s.issued o q s'.issued := by
  cases source with
  | plain id tree =>
    cases h
    exact .derivedPlain ho
  | wrapped id inner w =>
    have hw : w.inner = .backend := hflat.2 w rfl
    rcases query_result host hw e s with ⟨t, _, hfree, hquery⟩ | ⟨_, _, hquery⟩
    · cases hquery.symm.trans h
      exact .derivedWrapped ho hw hfree
    · cases hquery.symm.trans h

theorem derive_error {host : Host σ} {source : Query} (hflat : source.Flat) {e : Expr} {s s' : Session σ} {halt : Halt}
    (h : (Subtype.val <$> source.provider.query host e) s = .error halt s') : s'.issued = s.issued := by
  cases source with
  | plain id tree => cases h
  | wrapped id inner w =>
    rcases query_result host (hflat.2 w rfl) e s with ⟨_, _, _, hquery⟩ | ⟨_, _, hquery⟩
    · cases hquery.symm.trans h
    · cases hquery.symm.trans h
      rfl

theorem extend_eq (host : Host σ) (q : Query) (op : QueryOp) (f : Lambda) :
    (q.extend host op f : QueryM σ Query) = Subtype.val <$> q.provider.query host (.operator op q.tree (some f)) := by
  rw [← bind_pure_comp]
  rfl

theorem provide_eq (host : Host σ) (limit : Nat) (e : Expr) (s : Session σ) :
    provide host limit e s = (Subtype.val <$> (Wrapper.mk s.issued limit .backend).provider.query host e)
      { s with issued := s.issued + 1 } := by
  rw [← bind_pure_comp]
  rfl

theorem Origin.make_ok {host : Host σ} {o : Origin} (hflat : ∀ source ∈ o.source?, source.Flat) {s s' : Session σ}
    {q : Query} (h : o.make host s = .ok q s') : Makes s.issued o q s'.issued := by
  cases o with
  | create e =>
    cases h
    exact .created
  | provide limit e =>
    rw [Origin.make, provide_eq] at h
    have hresult := query_result host (w := ⟨s.issued, limit, .backend⟩) rfl e { s with issued := s.issued + 1 }
    rcases hresult with ⟨t, _, hfree, hquery⟩ | ⟨_, _, hquery⟩
    · cases hquery.symm.trans h
      exact .provided hfree
    · cases hquery.symm.trans h
  | bind source e => exact derive_ok (hflat source rfl) rfl h
  | wrap source limit =>
    cases source with
    | plain id tree =>
      cases h
      exact .wrapped
    | wrapped id inner w =>
      cases h
      exact .rewrapped (hflat _ rfl)
  | extend source op f =>
    rw [Origin.make, extend_eq] at h
    exact derive_ok (hflat source rfl) rfl h

theorem Origin.make_error {host : Host σ} {o : Origin} (hflat : ∀ source ∈ o.source?, source.Flat) {s s' : Session σ}
    {halt : Halt} (h : o.make host s = .error halt s') : s.issued ≤ s'.issued := by
  cases o with
  | create e => cases h
  | provide limit e =>
    rw [Origin.make, provide_eq] at h
    have hresult := query_result host (w := ⟨s.issued, limit, .backend⟩) rfl e { s with issued := s.issued + 1 }
    rcases hresult with ⟨_, _, _, hquery⟩ | ⟨_, _, hquery⟩
    · cases hquery.symm.trans h
    · cases hquery.symm.trans h
      exact Nat.le_succ _
  | bind source e => exact Nat.le_of_eq (derive_error (hflat source rfl) h).symm
  | wrap source limit => cases source <;> cases h
  | extend source op f =>
    rw [Origin.make, extend_eq] at h
    exact Nat.le_of_eq (derive_error (hflat source rfl) h).symm

/-! ## What follows of a step -/

theorem projects_iff_of_derivedFrom {o : Origin} {source : Query} (h : o.derivedFrom? = some source) :
    o.Projects ↔ source.isWrapped = true := by
  have hprovider : source.provider ≠ .backend ↔ source.isWrapped = true := by
    cases source <;> simp [provider, Wrapper.provider, isWrapped]
  cases o with
  | bind | extend =>
    cases h
    exact hprovider
  | _ => cases h

theorem source_of_derivedFrom {o : Origin} {source : Query} (h : o.derivedFrom? = some source) :
    o.source? = some source ∧ ¬ o.BringsProvider := by
  cases o with
  | bind | extend => exact ⟨h, False.elim⟩
  | _ => cases h

/-- The query and its provider have identities below this one. -/
def Below (n : Nat) (q : Query) : Prop := q.id < n ∧ ∀ w ∈ q.wrapper?, w.id < n

theorem Below.mono {n n' : Nat} {q : Query} (h : q.Below n) (hle : n ≤ n') : q.Below n' :=
  ⟨Nat.lt_of_lt_of_le h.1 hle, fun w hw => Nat.lt_of_lt_of_le (h.2 w hw) hle⟩

namespace Makes

variable {n n' : Nat} {o : Origin} {q : Query}

theorem flat (h : Makes n o q n') : q.Flat := by
  cases h with
  | rewrapped hflat => exact hflat
  | _ => simp_all [Flat, inner?, wrapper?, isWrapped]

theorem isWrapped_iff (h : Makes n o q n') : q.isWrapped = true ↔ o.Projects := by
  cases h with
  | derivedPlain ho => simp [projects_iff_of_derivedFrom ho, isWrapped]
  | derivedWrapped ho => simp [projects_iff_of_derivedFrom ho, isWrapped]
  | _ => simp [Origin.Projects, isWrapped]

theorem sound (h : Makes n o q n') : Made.Sound ⟨q, o⟩ where
  flat := h.flat
  isWrapped_iff := h.isWrapped_iff
  wrapped source limit ho hplain := by
    obtain rfl : o = .wrap source limit := ho
    cases h with
    | wrapped => exact ⟨rfl, _, rfl, rfl⟩
    | rewrapped => cases hplain
    | derivedPlain ho | derivedWrapped ho => cases ho
  rewrapped source limit ho hwrapped := by
    obtain rfl : o = .wrap source limit := ho
    cases h with
    | wrapped => cases hwrapped
    | rewrapped => rfl
    | derivedPlain ho | derivedWrapped ho => cases ho
  provided limit e ho := by
    obtain rfl : o = .provide limit e := ho
    cases h with
    | provided hfree => exact ⟨hfree, _, rfl, rfl⟩
    | derivedPlain ho | derivedWrapped ho => cases ho
  derived source ho hwrapped := by
    cases h with
    | derivedPlain ho' =>
      cases ho'.symm.trans ho
      cases hwrapped
    | derivedWrapped ho' _ hfree =>
      cases ho'.symm.trans ho
      exact ⟨rfl, hfree⟩
    | _ => cases ho

theorem le (h : Makes n o q n') : n ≤ n' := by
  cases h <;> omega

/-- Every identity in a new query is a new one, or one of its source. -/
theorem below (h : Makes n o q n') (hsource : ∀ source ∈ o.source?, source.Below n) : q.Below n' := by
  cases h with
  | created => exact ⟨Nat.lt_succ_self n, by simp [wrapper?]⟩
  | provided => exact ⟨by simp [id], by simp [wrapper?]⟩
  | wrapped => exact ⟨by simp [id], by simp [wrapper?]⟩
  | rewrapped => exact hsource _ rfl
  | derivedPlain => exact ⟨Nat.lt_succ_self n, by simp [wrapper?]⟩
  | derivedWrapped ho =>
    obtain ⟨-, hw⟩ := hsource _ (source_of_derivedFrom ho).1
    exact ⟨by simp [id], fun w hw' => Nat.lt_succ_of_lt (Nat.lt_succ_of_lt (hw w hw'))⟩

theorem le_id (h : Makes n o q n') (hnew : ¬ o.Rewraps) : n ≤ q.id := by
  cases h with
  | created | derivedPlain => exact Nat.le_refl n
  | provided => exact Nat.le_add_right n 2
  | wrapped | derivedWrapped => exact Nat.le_succ n
  | rewrapped => exact absurd rfl hnew

theorem wrapper_id (h : Makes n o q n') (hbrings : o.BringsProvider) {w : Wrapper} (hw : w ∈ q.wrapper?) :
    w.id = n := by
  cases h with
  | provided | wrapped =>
    cases hw
    rfl
  | derivedPlain ho | derivedWrapped ho => exact absurd hbrings (source_of_derivedFrom ho).2
  | created | rewrapped => cases hbrings

theorem apart (h : Makes n o q n') {m : Made} (hm : m.query.Below n) : Apart m ⟨q, o⟩ := by
  refine ⟨fun hnew heq => ?_, fun hbrings w hw w' hw' heq => ?_⟩
  · have hle := h.le_id hnew
    exact absurd (heq ▸ hm.1) (Nat.not_lt.2 hle)
  · have hid := h.wrapper_id hbrings hw'
    exact absurd (heq ▸ hid ▸ hm.2 w hw) (Nat.lt_irrefl _)

end Makes

/-! ## Every program -/

theorem Shares.flat {made : List Made} (h : Shares made) {q : Query} (hq : q ∈ made.map Made.query) : q.Flat := by
  obtain ⟨m, hm, rfl⟩ := List.mem_map.1 hq
  exact (h.sound m hm).flat

namespace Reachable

variable {host : Host σ} {made : List Made} {s : Session σ}

/-- **What every step keeps**: the queries are sound and apart, and the session has issued all their identities. -/
theorem invariant (h : Reachable host made s) : Shares made ∧ ∀ m ∈ made, m.query.Below s.issued := by
  -- The second part is what makes the identities of the next step new ones.
  induction h with
  | start s => exact ⟨⟨by simp, .nil⟩, by simp⟩
  | @made made s s' o q _ hsource hmake ih =>
    obtain ⟨hshares, hbelow⟩ := ih
    have hmakes : Makes s.issued o q s'.issued :=
      Origin.make_ok (fun source h => hshares.flat (hsource source h)) hmake
    have hq : q.Below s'.issued := by
      refine hmakes.below fun source h => ?_
      obtain ⟨m, hm, rfl⟩ := List.mem_map.1 (hsource source h)
      exact hbelow m hm
    refine ⟨⟨?_, ?_⟩, ?_⟩
    · exact List.forall_mem_append.2 ⟨hshares.sound, by simpa using hmakes.sound⟩
    · refine List.pairwise_append.2 ⟨hshares.apart, List.pairwise_singleton _ _, fun m hm m' hm' => ?_⟩
      obtain rfl := List.mem_singleton.1 hm'
      exact hmakes.apart (hbelow m hm)
    · exact List.forall_mem_append.2 ⟨fun m hm => (hbelow m hm).mono hmakes.le, by simpa using hq⟩
  | @failed made s s' o halt _ hsource hmake ih =>
    obtain ⟨hshares, hbelow⟩ := ih
    have hle : s.issued ≤ s'.issued := Origin.make_error (fun source h => hshares.flat (hsource source h)) hmake
    exact ⟨hshares, fun m hm => (hbelow m hm).mono hle⟩

end Reachable

/-- **Wrappers are shared and do not nest.**  Of whatever queries a program can have made, in whatever order, wrapped
and wrapped again with other limits, each one is as it should be for the way in which it was made, and no two objects
are taken for one. -/
theorem reachable_shares {host : Host σ} {made : List Made} {s : Session σ} (h : Reachable host made s) :
    Shares made := h.invariant.1

def source : Query := .plain 0 (.source "rows")

def wrappedSource : Query := .wrapped 2 source ⟨1, 8, .backend⟩

def everyRow : Lambda := ⟨[⟨⟨0, 0⟩, "row", .any⟩], .literal (.bool true) ⟨0⟩⟩

def filtered : Query :=
  .wrapped 4 (.plain 3 (.operator .filter (.source "rows") (some everyRow))) ⟨1, 8, .backend⟩

/-- A source that is wrapped, wrapped again with another limit, and filtered. -/
def wrappedTwice : List Made :=
  [⟨source, .create (.source "rows")⟩, ⟨wrappedSource, .wrap source 8⟩, ⟨wrappedSource, .wrap wrappedSource 3⟩,
    ⟨filtered, .extend wrappedSource .filter everyRow⟩]

theorem reachable_shares_wrappedTwice :
    (∃ s, Reachable Expr.quiet wrappedTwice s) ∧ Shares wrappedTwice := by
  have hmarker : filtered.tree.MarkerFree := by decide
  have hexpanded : ∀ s : Session Unit, Provider.expanded Expr.quiet 8 filtered.tree s = .ok filtered.tree s := fun s =>
    bind_of_ok (inside_eq_ok_iff.2 ⟨_, Expr.expand_of_markerFree Expr.quiet 8 hmarker s.hostState, rfl⟩)
  have hextend : ∀ requests, (Origin.extend wrappedSource .filter everyRow).make Expr.quiet ⟨requests, 3, ()⟩ =
      .ok filtered ⟨.create filtered.tree :: requests, 5, ()⟩ := fun requests =>
    query_of_expanded (w := ⟨1, 8, .backend⟩) rfl (hexpanded ⟨requests, 3, ()⟩)
  have hcreated : Reachable Expr.quiet [⟨source, .create (.source "rows")⟩] ⟨[.create (.source "rows")], 1, ()⟩ :=
    .made (.start ⟨[], 0, ()⟩) (by simp [Origin.source?]) rfl
  have hwrapped : Reachable Expr.quiet [⟨source, .create (.source "rows")⟩, ⟨wrappedSource, .wrap source 8⟩]
      ⟨[.create (.source "rows")], 3, ()⟩ := .made hcreated (by simp [Origin.source?]) rfl
  have hrewrapped : Reachable Expr.quiet [⟨source, .create (.source "rows")⟩, ⟨wrappedSource, .wrap source 8⟩,
      ⟨wrappedSource, .wrap wrappedSource 3⟩] ⟨[.create (.source "rows")], 3, ()⟩ :=
    .made hwrapped (by simp [Origin.source?]) rfl
  have hfiltered : Reachable Expr.quiet wrappedTwice _ :=
    .made hrewrapped (by simp [Origin.source?]) (hextend [.create (.source "rows")])
  exact ⟨⟨_, hfiltered⟩, reachable_shares hfiltered⟩

end Query

end Splice
