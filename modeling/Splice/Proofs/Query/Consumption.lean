import Splice.Proofs.Query.Sending
import Splice.Proofs.Query.Terminating
/-!
# All ways to consume a query

A query is executed to one value, at once or asynchronously; its rows are enumerated, or streamed, or its tree is given
to its provider as a stream.  Each way goes through code of its own, and expands the tree by itself: a wrapped query
that is enumerated goes on to the query that it wraps, or has a new one made behind it.

**They all come to what the backend makes of one tree** (`Provider.sent`), the tree of the query with one expansion for
every provider in front of the backend.  So enumerating and streaming give the rows of the list that executing gives, or
fail as executing fails (`Query.consumption_agrees`), with the same effects on the host program
(`Query.rows_follows`).  Over an engine, counting gives the number of the rows; the count is evaluated one level deeper
than the rows, and no matter how much deeper (`Env.evaluateWithin_deeper`).
-/
namespace Splice

open Run

variable {σ : Type}

/-! ## Streams -/

namespace RowStream

/-- The stream after `n` polls. -/
def after : Nat → RowStream → RowStream
  | 0, s => s
  | n + 1, s => s.poll.2.after n

theorem after_eq (n : Nat) (s : RowStream) :
    s.after n = ⟨s.remaining.drop n, s.yielded + min n s.remaining.length⟩ := by
  induction n generalizing s with
  | zero => rw [after, List.drop_zero, Nat.zero_min, Nat.add_zero]
  | succ n ih =>
    rcases s with ⟨_ | ⟨row, rest⟩, yielded⟩
    · rw [after, ih]
      simp [poll]
    · rw [after, ih]
      simp only [poll, List.drop_succ_cons, List.length_cons, mk.injEq, true_and]
      omega

theorem poll_fst (s : RowStream) : s.poll.1 = s.remaining.head? := by
  rcases s with ⟨_ | ⟨row, rest⟩, yielded⟩ <;> rfl

/-- Polling the stream hands out these rows one after the other.  At every poll what was handed out and what is
expected add up to all of them, the two bounds of the hint are one, and a stream that has ended stays ended. -/
structure HandsOut (rows : List Value) (s : RowStream) : Prop where
  polled : ∀ n, (s.after n).poll.1 = rows[n]?
  total : ∀ n, (s.after n).yielded + (s.after n).sizeHint.1 = rows.length
  exact : ∀ n, (s.after n).sizeHint.2 = some (s.after n).sizeHint.1
  ended : ∀ n, (s.after n).poll.1 = none → ∀ m, n ≤ m → (s.after m).poll.1 = none

theorem handsOut_ofRows (rows : List Value) : HandsOut rows (ofRows rows) := by
  have hpoll : ∀ n, ((ofRows rows).after n).poll.1 = rows[n]? := fun n => by
    rw [poll_fst, after_eq, List.head?_drop]
    rfl
  refine ⟨hpoll, fun n => ?_, fun n => rfl, fun n hn m hm => ?_⟩
  · rw [after_eq]
    simp only [ofRows, sizeHint, List.length_drop]
    omega
  · rw [hpoll] at hn ⊢
    exact List.getElem?_eq_none (Nat.le_trans (List.getElem?_eq_none_iff.1 hn) hm)

theorem collect_map_ofRows (x : QueryM σ (List Value)) :
    collect <$> (ofRows <$> x : QueryM σ RowStream) = x := by
  rw [← comp_map, show collect ∘ ofRows = id from funext collect_ofRows, id_map]

end RowStream

/-! ## Rows -/

namespace Query

variable (host : Host σ) (b : Backend σ)

/-- **Enumerating a query is executing its tree.** -/
theorem rows_follows : ∀ q : Query, Follows strictly OnHost (· = ·) (q.rows host b)
      (q.provider.sent host q.tree >>= fun t => b.execute t >>= fun v => Run.attempt (Provider.listed v))
  | .plain id tree => by
    rw [rows]
    exact follows_of_step (note_step _) fun _ => Provider.executeRows_follows host b .backend tree
  | .wrapped id inner wrapper => by
    have hexpand : Follows strictly OnHost (fun edit t => t = Edit.result inner.tree edit ∧ t.MarkerFree)
        (Session.onHost (inner.tree.expand host wrapper.limit)) (inner.tree.expanded host wrapper.limit) := by
      rw [← bind_pure (Session.onHost _)]
      refine follows_bind (Q := Same fun edit => (edit.result inner.tree).MarkerFree) ?_ ?_
      · exact follows_of_inside (fun _ _ h => h) (fun _ _ _ _ _ h => h)
          (Expr.expand_markerFree host wrapper.limit inner.tree).self
      · rintro edit _ ⟨rfl, hfree⟩
        exact follows_pure ⟨rfl, hfree⟩
    rw [rows, provider, Wrapper.provider, Provider.sent, tree, bind_assoc]
    refine follows_bind hexpand ?_
    rintro edit t ⟨ht, hfree⟩
    rw [Provider.sent_of_markerFree host wrapper.inner hfree, pure_bind]
    cases edit with
    | keep =>
      -- The tree has no marker call, so the query that is wrapped sends it as it is.
      obtain rfl : t = inner.tree := ht
      have hinner := rows_follows inner
      rwa [Provider.sent_of_markerFree host inner.provider hfree, pure_bind] at hinner
    | put t' =>
      -- A new query is made behind the wrapper; it has the expanded tree, and sends it as it is.
      obtain rfl : t = t' := ht
      have hquery := Provider.query_follows host wrapper.inner t
      rw [Provider.sent_of_markerFree host wrapper.inner hfree] at hquery
      refine follows_of_pure hquery fun q hq => ?_
      have hbound := rows_follows q.val
      rwa [hq.1, hq.2, Provider.sent_of_markerFree host wrapper.inner hfree, pure_bind] at hbound
termination_by q => q.nesting
decreasing_by
  · simp only [nesting]
    omega
  · have := q.property
    simp only [nesting]
    omega

end Query

/-! ## Rows and values -/

/-- From this session, `y` has the rows of the list that `x` has.  It is a type mismatch if `x` has another value, and
where `x` stops, `y` stops for the same reason. -/
structure Delivers (s : Session σ) (x : QueryM σ Value) (y : QueryM σ (List Value)) : Prop where
  rows : ∀ rows, x.outcome s = .ok (.list rows) → y.outcome s = .ok rows
  mismatch : ∀ v, x.outcome s = .ok v → (∀ rows, v ≠ .list rows) →
    y.outcome s = .error (.error (.typeMismatch "row sequence" v.typeName))
  stops : ∀ halt, x.outcome s = .error halt → y.outcome s = .error halt

theorem delivers_of_follows {x : QueryM σ Value} {y : QueryM σ (List Value)} {z : Run σ Value}
    (hx : Follows strictly Query.OnHost (· = ·) x z)
    (hy : Follows strictly Query.OnHost (· = ·) y (z >>= fun v => Run.attempt (Provider.listed v))) (s : Session σ) :
    Delivers s x y := by
  have houtcome : ∀ {v}, x.outcome s = .ok v →
      ∃ h', y.outcome s = (Run.attempt (Provider.listed v) : Run σ (List Value)).outcome h' := by
    intro v hv
    obtain ⟨h', hz⟩ := outcome_eq_ok_iff.1 ((hx.outcome_eq rfl).trans hv)
    exact ⟨h', (hy.outcome_eq rfl).symm.trans (outcome_bind_of_ok hz)⟩
  refine ⟨fun rows hv => ?_, fun v hv hnot => ?_, fun halt hhalt => ?_⟩
  · obtain ⟨h', hlisted⟩ := houtcome hv
    exact hlisted
  · obtain ⟨h', hlisted⟩ := houtcome hv
    rw [hlisted]
    cases v with
    | list rows => exact absurd rfl (hnot rows)
    | _ => rfl
  · have hz := (hx.outcome_eq rfl).trans hhalt
    exact (hy.outcome_eq rfl).symm.trans (outcome_bind_of_error hz)

/-! ## Counting over an engine -/

namespace Engine

def backend (g : Engine σ) : Backend σ where
  execute := g.execute

/-- The engine with another bound on the depth of its evaluations. -/
def withFuel (g : Engine σ) (fuel : Nat) : Engine σ := { g with host := { g.host with fuel } }

theorem validate_operator {g : Engine σ} (op : QueryOp) {e : Expr} (h : g.validate e = .ok ()) :
    g.validate (.operator op e none) = .ok () := by
  unfold validate at h ⊢
  split
  case isTrue hstrict => exact Strict.check_operator op (by rwa [if_pos hstrict] at h)
  case isFalse => rfl

/-- **An operator without a lambda, one level above a tree that the engine executes, is applied to its value.** -/
theorem execute_operator {g : Engine σ} {e : Expr} {v : Value} {h h' : σ} (he : g.execute e h = .ok v h') {n : Nat}
    (hn : g.host.fuel ≤ n) (op : QueryOp) :
    ((g.withFuel (n + 1)).execute (.operator op e none)).outcome h =
      (Operators.onReceiver ((g.withFuel (n + 1)).env.evaluateWithin n) op none v).outcome ⟨[], h'⟩ := by
  obtain ⟨_, _, hlift, hvalue⟩ := bind_eq_ok_iff.1 he
  obtain ⟨hvalid, rfl⟩ := lift_eq_ok_iff.1 hlift
  obtain ⟨st, heval, rfl⟩ := inside_eq_ok_iff.1 hvalue
  have hsource : ∀ name, (g.withFuel (n + 1)).env.source name = g.env.source name := fun _ => rfl
  have hdeeper := Env.evaluateWithin_deeper hsource rfl hn e []
  obtain ⟨-, _, rfl, heval'⟩ := hdeeper.at_ok heval
  have hoperator : (g.withFuel (n + 1)).validate (.operator op e none) = .ok () := validate_operator op hvalid
  unfold execute
  rw [hoperator]
  refine (outcome_bind_of_ok rfl).trans ((outcome_inside _ _ _ _).trans ?_)
  exact (outcome_bind_of_ok rfl).trans (outcome_bind_of_ok heval')

end Engine

namespace Query

/-- **Whatever has rows over an engine answers an operator on its rows**, if the evaluation may go one level deeper. -/
theorem aggregate_of_rows {host : Host σ} {g : Engine σ} {q : Query} {s : Session σ} {rows : List Value}
    (hrows : (q.rows host g.backend).outcome s = .ok rows) {n : Nat} (hn : g.host.fuel ≤ n) (op : QueryOp) :
    ∃ h, (q.aggregate host (g.withFuel (n + 1)).backend op none).outcome s =
      (Operators.onReceiver ((g.withFuel (n + 1)).env.evaluateWithin n) op none (.list rows)).outcome ⟨[], h⟩ := by
  obtain ⟨_, hsent⟩ := outcome_eq_ok_iff.1 (((rows_follows host g.backend q).outcome_eq rfl).trans hrows)
  obtain ⟨t, h₁, hsent, hexecute⟩ := bind_eq_ok_iff.1 hsent
  obtain ⟨v, h₂, hexecute, hlisted⟩ := bind_eq_ok_iff.1 hexecute
  obtain rfl : v = .list rows := by
    cases v with
    | list items =>
      cases hlisted
      rfl
    | _ => cases hlisted
  have haggregate := Provider.execute_follows host (g.withFuel (n + 1)).backend q.provider (.operator op q.tree none)
  rw [Provider.sent_operator, bind_assoc] at haggregate
  refine ⟨h₂, (haggregate.outcome_eq rfl).symm.trans ?_⟩
  rw [outcome_bind_of_ok hsent]
  exact Engine.execute_operator hexecute hn op

theorem count_of_rows {host : Host σ} {g : Engine σ} {q : Query} {s : Session σ} {rows : List Value}
    (hrows : (q.rows host g.backend).outcome s = .ok rows) {fuel : Nat} (hfuel : g.host.fuel < fuel) :
    (q.count host (g.withFuel fuel).backend).outcome s = .ok (Int64.ofNat rows.length) := by
  obtain ⟨n, rfl⟩ : ∃ n, fuel = n + 1 := ⟨fuel - 1, by omega⟩
  obtain ⟨h, haggregate⟩ := aggregate_of_rows hrows (Nat.le_of_lt_succ hfuel) .count
  have hcount : (q.aggregate host (g.withFuel (n + 1)).backend .count none).outcome s =
      .ok (.int (Int64.ofNat rows.length)) := haggregate
  obtain ⟨_, hcount⟩ := outcome_eq_ok_iff.1 hcount
  exact outcome_bind_of_ok hcount

theorem any_of_rows {host : Host σ} {g : Engine σ} {q : Query} {s : Session σ} {rows : List Value}
    (hrows : (q.rows host g.backend).outcome s = .ok rows) {fuel : Nat} (hfuel : g.host.fuel < fuel) :
    (q.any host (g.withFuel fuel).backend none).outcome s = .ok (decide (0 < rows.length)) := by
  obtain ⟨n, rfl⟩ : ∃ n, fuel = n + 1 := ⟨fuel - 1, by omega⟩
  obtain ⟨h, haggregate⟩ := aggregate_of_rows hrows (Nat.le_of_lt_succ hfuel) .any
  have hany : (q.aggregate host (g.withFuel (n + 1)).backend .any none).outcome s = .ok (.bool !rows.isEmpty) :=
    haggregate
  obtain ⟨_, hany⟩ := outcome_eq_ok_iff.1 hany
  refine (outcome_bind_of_ok hany).trans ?_
  cases rows <;> rfl

/-! ## All ways agree -/

/-- **All ways to consume a query agree.**  An asynchronous execution has the outcome of a direct one.  The rows of the
query, its stream and the stream of its tree, polled to the end, are the rows of the list that it executes to; there
are none if it executes to something else, and an error is the same error.  Such a stream hands out the rows one by one
and counts them.  Over an engine a query that has rows has as many as it counts, and `any` says if there is one. -/
theorem consumption_agrees (host : Host σ) (b : Backend σ) (q : Query) (s : Session σ) :
    (q.executeAsync host b).outcome s = (q.execute host b).outcome s ∧
    Delivers s (q.execute host b) (q.rows host b) ∧
    Delivers s (q.execute host b) (RowStream.collect <$> q.stream host b) ∧
    Delivers s (q.execute host b) (RowStream.collect <$> q.executeStream host b q.tree) ∧
    (∀ stream, (q.stream host b).outcome s = .ok stream ∨ (q.executeStream host b q.tree).outcome s = .ok stream →
      ∃ rows, (q.rows host b).outcome s = .ok rows ∧ stream.HandsOut rows) ∧
    ∀ (g : Engine σ) rows, (q.rows host g.backend).outcome s = .ok rows → ∀ fuel, g.host.fuel < fuel →
      (q.count host (g.withFuel fuel).backend).outcome s = .ok (Int64.ofNat rows.length) ∧
      (q.any host (g.withFuel fuel).backend none).outcome s = .ok (decide (0 < rows.length)) := by
  have hexecute := Provider.execute_follows host b q.provider q.tree
  have hasync := Provider.executeAsync_follows host b q.provider q.tree
  have hrows : Follows strictly OnHost (· = ·) (q.rows host b)
      (q.provider.sent host q.tree >>= b.execute >>= fun v => Run.attempt (Provider.listed v)) := by
    rw [bind_assoc]
    exact rows_follows host b q
  have htree : Follows strictly OnHost (· = ·) (q.provider.executeRows host b q.tree)
      (q.provider.sent host q.tree >>= b.execute >>= fun v => Run.attempt (Provider.listed v)) := by
    rw [bind_assoc]
    exact Provider.executeRows_follows host b q.provider q.tree
  refine ⟨?_, delivers_of_follows hexecute hrows s, ?_, ?_, fun stream hstream => ?_, fun g rows h fuel hfuel => ?_⟩
  · exact (hasync.outcome_eq rfl).symm.trans (hexecute.outcome_eq rfl)
  · rw [stream, RowStream.collect_map_ofRows]
    exact delivers_of_follows hexecute hrows s
  · rw [executeStream, RowStream.collect_map_ofRows]
    exact delivers_of_follows hexecute htree s
  · obtain ⟨rows, hrows, rfl⟩ : ∃ rows, (q.rows host b).outcome s = .ok rows ∧ RowStream.ofRows rows = stream := by
      rcases hstream with hstream | hstream
      · exact outcome_map_eq_ok_iff.1 hstream
      · obtain ⟨rows, htreeRows, rfl⟩ := outcome_map_eq_ok_iff.1 hstream
        exact ⟨rows, (hrows.outcome_eq rfl).symm.trans ((htree.outcome_eq rfl).trans htreeRows), rfl⟩
    exact ⟨rows, hrows, RowStream.handsOut_ofRows rows⟩
  · exact ⟨count_of_rows h hfuel, any_of_rows h hfuel⟩

/-- A wrapped query of every row of a source and one more, where the addition is a projection. -/
def projected : Query :=
  .wrapped 1 (.plain 0 (.operator .select (.source "s") (some ⟨[⟨⟨0, 0⟩, "x", .any⟩],
    Expr.plusOne (.param ⟨⟨0, 0⟩, "x", .any⟩)⟩))) ⟨0, 1, .backend⟩

theorem consumption_agrees_projected :
    (projected.rows Expr.quiet (Engine.oneRow.withFuel 10).backend).outcome ⟨[], 2, ()⟩ = .ok [.int 2] ∧
      (projected.count Expr.quiet (Engine.oneRow.withFuel 11).backend).outcome ⟨[], 2, ()⟩ = .ok 1 ∧
      (projected.any Expr.quiet (Engine.oneRow.withFuel 11).backend none).outcome ⟨[], 2, ()⟩ = .ok true := by
  have hexpanded : projected.tree.expanded Expr.quiet 1 () = .ok Engine.rowsPlusOne () := by
    rw [Expr.expanded_eq]
    rfl
  have hvalid : (Engine.oneRow.withFuel 10).validate Engine.rowsPlusOne = .ok () := Strict.check_eq_ok rfl rfl
  have hexecute : (Engine.oneRow.withFuel 10).execute Engine.rowsPlusOne () = .ok (.list [.int 2]) () := by
    unfold Engine.execute
    rw [hvalid]
    rfl
  have hrows : (projected.rows Expr.quiet (Engine.oneRow.withFuel 10).backend).outcome ⟨[], 2, ()⟩ =
      .ok [.int 2] := by
    refine ((rows_follows Expr.quiet _ projected).outcome_eq rfl).symm.trans ?_
    exact (outcome_bind_of_ok (bind_of_ok hexpanded)).trans (outcome_bind_of_ok hexecute)
  have hagree := consumption_agrees Expr.quiet (Engine.oneRow.withFuel 10).backend projected ⟨[], 2, ()⟩
  exact ⟨hrows, hagree.2.2.2.2.2 (Engine.oneRow.withFuel 10) _ hrows 11 (by decide)⟩

end Query

end Splice
