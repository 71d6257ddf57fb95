import Splice.Proofs.Expansion.MarkerFree
import Mathlib.Data.List.Forall2
/-!
# What an expansion consults

What is not in a tree itself comes into its expansion through the lambdas that its references denote.
`Expansion.Consults` says which references are resolved on the way, and in which states of the host program: those of
the tree, those in references and actual arguments, and those of the bodies that are put in, up to the place where the
expansion ends.

A law about the trees that expansions give is proved for a node that is rebuilt and for a body that is put in, and may
use of every reference on the way that it was consulted (`Expansion.expandWithin_induction`).
-/
namespace Splice

open Run

variable {σ : Type}

theorem exists_of_forall₂ {α β : Type} {R : α → β → Prop} {as : List α} {bs : List β} (h : List.Forall₂ R as bs)
    {b : β} (hb : b ∈ bs) : ∃ a ∈ as, R a b := by
  induction h with
  | nil => cases hb
  | @cons a b' as bs hab _ ih =>
    rcases List.mem_cons.1 hb with rfl | hb
    · exact ⟨a, List.mem_cons_self, hab⟩
    · obtain ⟨a', ha', hab'⟩ := ih hb
      exact ⟨a', List.mem_cons_of_mem a ha', hab'⟩

theorem Reference.lambdaOf_eq_ok {wrongType : String → Error} {v : Value} {k k' : σ} {f : Lambda}
    (h : lambdaOf wrongType v k = .ok f k') : v = .ofLambda f ∧ k' = k := by
  cases v with
  | lambda params body =>
    cases h
    exact ⟨rfl, rfl⟩
  | _ => cases h

namespace Expansion

/-- On its way through the tree, from the host state that is given last, the expansion comes to a marker call whose
reference has become `r`, and resolves it in the host state `k`. -/
inductive Consults (host : Host σ) (limit : Nat) (r : Expr) (k : σ) : (levels : Nat) → Expr → σ → Prop
  | child {levels : Nat} {e c : Expr} {before after ts : List Expr} {s t : σ} : e.children = before ++ c :: after →
      expandAllWithin host limit levels before s = .ok ts t → Consults host limit r k (levels + 1) c t →
      Consults host limit r k (levels + 1) e s
  | site {levels : Nat} {reference : Expr} {actuals as : List Expr} {s : σ} :
      expandAllWithin host limit levels (reference :: actuals) s = .ok (r :: as) k →
      Consults host limit r k (levels + 1) (Marker.call reference actuals) s
  | body {levels : Nat} {reference r' : Expr} {actuals as : List Expr} {f : Lambda} {s t u : σ} :
      expandAllWithin host limit levels (reference :: actuals) s = .ok (r' :: as) t →
      r'.resolve host t = .ok f u → f.arity = as.length → Consults host limit r k levels f.body u →
      Consults host limit r k (levels + 1) (Marker.call reference actuals) s

variable {host : Host σ} {limit levels : Nat}

theorem expandAllWithin_cons_eq_ok {e t : Expr} {es ts : List Expr} {s k s' : σ}
    (ht : expandWithin host limit (levels + 1) e s = .ok t k) (hts : expandAllWithin host limit levels es k = .ok ts s') :
    expandAllWithin host limit levels (e :: es) s = .ok (t :: ts) s' := by
  rw [expandAllWithin_cons, bind_of_ok ht, bind_of_ok hts]
  rfl

theorem exists_of_expandAllWithin_cons {e : Expr} {es ts : List Expr} {s s' : σ}
    (h : expandAllWithin host limit levels (e :: es) s = .ok ts s') :
    ∃ t ts', ts = t :: ts' ∧ ∃ k, expandWithin host limit (levels + 1) e s = .ok t k ∧
      expandAllWithin host limit levels es k = .ok ts' s' := by
  rw [expandAllWithin_cons, bind_eq_ok_iff] at h
  obtain ⟨t, k, ht, h⟩ := h
  obtain ⟨ts', k', hts, h⟩ := bind_eq_ok_iff.1 h
  cases h
  exact ⟨t, ts', rfl, k, ht, hts⟩

theorem expandAllWithin_forall₂ {Q : Expr → Expr → Prop} {es ts : List Expr} {s s' : σ}
    (h : expandAllWithin host limit levels es s = .ok ts s')
    (hQ : ∀ before c after before' s₁ t s₂, es = before ++ c :: after →
      expandAllWithin host limit levels before s = .ok before' s₁ →
      expandWithin host limit (levels + 1) c s₁ = .ok t s₂ → Q c t) :
    List.Forall₂ Q es ts := by
  induction es generalizing s ts with
  | nil =>
    cases h
    exact .nil
  | cons e es ih =>
    obtain ⟨t, ts, rfl, s₁, ht, hts⟩ := exists_of_expandAllWithin_cons h
    refine .cons (hQ [] e es [] s t s₁ rfl rfl ht) (ih hts fun before c after before' u t' u' hes hbefore => ?_)
    exact hQ (e :: before) c after (t :: before') u t' u' (hes ▸ rfl) (expandAllWithin_cons_eq_ok ht hbefore)

theorem expandAllWithin_length {es ts : List Expr} {s s' : σ} (h : expandAllWithin host limit levels es s = .ok ts s') :
    ts.length = es.length :=
  (expandAllWithin_forall₂ (Q := fun _ _ => True) h fun _ _ _ _ _ _ _ _ _ _ => trivial).length_eq.symm

theorem expandWithin_call_eq_ok_iff {reference t : Expr} {actuals : List Expr} {s s' : σ} :
    expandWithin host limit (levels + 1) (Marker.call reference actuals) s = .ok t s' ↔
      ∃ r as k, expandAllWithin host limit levels (reference :: actuals) s = .ok (r :: as) k ∧
        finish host (expandWithin host limit levels) (Marker.call r as) k = .ok t s' := by
  rw [expandWithin_call, bind_eq_ok_iff]
  constructor
  · rintro ⟨r, k, hr, h⟩
    obtain ⟨as, k', has, h⟩ := bind_eq_ok_iff.1 h
    exact ⟨r, as, k', expandAllWithin_cons_eq_ok hr has, h⟩
  · rintro ⟨r, as, k', hcs, h⟩
    obtain ⟨_, _, heq, k, hr, has⟩ := exists_of_expandAllWithin_cons hcs
    cases heq
    exact ⟨r, k, hr, (bind_of_ok has).trans h⟩

/-- **In a tree without marker calls nothing is consulted.** -/
theorem Consults.not_markerFree {r e : Expr} {k s : σ} (h : Consults host limit r k levels e s) : ¬ e.MarkerFree := by
  induction h with
  | child hsplit _ _ ih => exact fun hfree => ih (hfree.child (hsplit ▸ List.mem_append_right _ List.mem_cons_self))
  | site => exact fun hfree => Bool.noConfusion (hfree _ .self)
  | body => exact fun hfree => Bool.noConfusion (hfree _ .self)

theorem Consults.of_call {r reference : Expr} {actuals : List Expr} {k s : σ}
    (hparts : ∀ c ∈ (Marker.call reference actuals).children, c.MarkerFree)
    (hbody : ∀ t f u, reference.resolve host t = .ok f u → f.body.MarkerFree)
    (h : Consults host limit r k (levels + 1) (Marker.call reference actuals) s) : r = reference ∧ k = s := by
  have hpure : expandAllWithin host limit levels (reference :: actuals) = pure (reference :: actuals) :=
    expandAllWithin_eq_pure fun c hc => expandWithin_of_markerFree host limit levels (hparts c hc)
  cases h with
  | child hsplit _ h =>
    exact absurd (hparts _ (hsplit ▸ List.mem_append_right _ List.mem_cons_self)) h.not_markerFree
  | site hcs =>
    rw [hpure] at hcs
    cases hcs
    exact ⟨rfl, rfl⟩
  | body hcs hf _ h =>
    rw [hpure] at hcs
    cases hcs
    exact absurd (hbody _ _ _ hf) h.not_markerFree

/-- **Induction on expansions.**  What holds of a node that is rebuilt around its expanded children, and of the body
that takes the place of a marker call, holds of every tree and what it expands to. -/
theorem expandWithin_induction {H : Expr → σ → Prop} {Q : Expr → Expr → Prop}
    (node : ∀ e cs t, Marker.isMarker e = false → Expr.Rebuilds e cs t → List.Forall₂ Q e.children cs → Q e t)
    (site : ∀ reference actuals r as f b k k', Q reference r → List.Forall₂ Q actuals as → H r k →
      r.resolve host k = .ok f k' → f.arity = as.length → Q f.body b →
      Q (Marker.call reference actuals) ((Substitution.ofCall f.params as).replace b)) :
    ∀ (levels : Nat) (e t : Expr) (s s' : σ), (∀ r k, Consults host limit r k levels e s → H r k) →
      expandWithin host limit levels e s = .ok t s' → Q e t := by
  intro levels
  induction levels with
  | zero => exact fun _ _ _ _ _ h => nomatch h
  | succ levels ihlevels =>
    intro e
    induction e using Expr.children_induction with
    | node e ih =>
      intro t s s' hconsults h
      have hchildren : ∀ cs k, expandAllWithin host limit levels e.children s = .ok cs k →
          List.Forall₂ Q e.children cs := by
        intro cs k hcs
        refine expandAllWithin_forall₂ hcs fun before c after before' u t' u' hsplit hbefore hc => ?_
        have hmem : c ∈ e.children := hsplit ▸ List.mem_append_right _ List.mem_cons_self
        exact ih c hmem t' u u' (fun r k hr => hconsults r k (.child hsplit hbefore hr)) hc
      cases hm : Marker.isMarker e with
      | false =>
        rw [expandWithin_eq, bind_eq_ok_iff] at h
        obtain ⟨cs, k, hcs, h⟩ := h
        obtain ⟨e', hrebuilds⟩ := Expr.exists_rebuilds (hchildren cs k hcs).length_eq.symm
        rw [Expr.withChildren_eq_ok_iff.2 hrebuilds] at h
        change finish host _ e' k = _ at h
        rw [finish_of_not_marker host _ (hrebuilds.isMarker.trans hm)] at h
        cases h
        exact node e cs t hm hrebuilds (hchildren cs _ hcs)
      | true =>
        obtain ⟨args, rfl⟩ := Expr.isMarker_iff.1 hm
        cases args with
        | nil => cases h
        | cons reference actuals =>
          obtain ⟨r, as, k, hcs, h⟩ := expandWithin_call_eq_ok_iff.1 h
          obtain ⟨f, b, k', hf, harity, hb, rfl⟩ := finish_eq_ok_iff.1 h
          obtain ⟨hr, has⟩ := List.forall₂_cons.1 (hchildren _ _ hcs)
          refine site reference actuals r as f b k k' hr has (hconsults r k (.site hcs)) hf harity ?_
          exact ihlevels f.body b k' s' (fun r k hr => hconsults r k (.body hcs hf harity hr)) hb

end Expansion

/-- Expanding the tree in the host state `s`, a reference that has become `r` is resolved in the host state `k`. -/
def Expr.Consults (host : Host σ) (limit : Nat) (e : Expr) (s : σ) (r : Expr) (k : σ) : Prop :=
  Expansion.Consults host limit r k (limit + 1) e s

end Splice
