import Splice.Param
import Mathlib.Data.List.Induction
/-!
# Every declaration has an identity of its own

A program creates arenas and declares parameters in them, in any order.  A `Journal` is what such a program has come to:
the registry, and the declarations with the parameters that they gave.  Creating an arena or declaring in one leaves the
others as they are, so an arena can be read off the journal: **its token is its number, and its slots are the
declarations made in it, in their order** (`Journal.Kept`).

So an identity tells which declaration it comes from, and the arena that issued it, and no other one, finds the
declaration again at any later time (`Journal.identities`).  This ends where the counter of tokens comes round: a token
is a number of 64 bits.
-/
namespace Splice.Registry

/-- What a program does with arenas, which it knows by their numbers. -/
inductive Act where
  | create
  | declare (arena : Nat) (name : String) (type : DataType)
deriving DecidableEq

/-- What was declared in which arena, and the parameter that this gave. -/
structure Declaration where
  arena : Nat
  name : String
  type : DataType
  param : Param

/-- The declarations made in an arena. -/
def inArena (number : Nat) (ds : List Declaration) : List Declaration := ds.filter fun d => d.arena == number

/-- The arenas and what was declared in them, oldest first. -/
structure Journal where
  registry : Registry := {}
  declarations : List Declaration := []

namespace Journal

/-- The journal after an act.  An arena that is not there declares nothing. -/
def act (j : Journal) : Act → Journal
  | .create => { j with registry := j.registry.create.2 }
  | .declare number name type =>
    match j.registry.declare number name type with
    | some (p, r) => ⟨r, j.declarations ++ [⟨number, name, type, p⟩]⟩
    | none => j

def ofActs (acts : List Act) : Journal := acts.foldl act {}

variable {j : Journal} {acts : List Act} {number i k : Nat} {name : String} {type : DataType} {a : Arena}
  {d d' : Declaration} {ds : List Declaration}

/-! ## One act -/

theorem ofActs_concat (acts : List Act) (x : Act) : ofActs (acts ++ [x]) = (ofActs acts).act x :=
  List.foldl_append

theorem act_declare_of_some (h : j.registry.arena? number = some a) :
    j.act (.declare number name type) = ⟨⟨j.registry.arenas.set number (a.declare name type).2⟩,
      j.declarations ++ [⟨number, name, type, (a.declare name type).1⟩]⟩ := by
  simp only [act, Registry.declare, h, Option.map_some]

theorem act_declare_of_none (h : j.registry.arena? number = none) : j.act (.declare number name type) = j := by
  simp only [act, Registry.declare, h, Option.map_none]

theorem length_arenas (acts : List Act) : (ofActs acts).registry.arenas.length = acts.count .create := by
  induction acts using List.reverseRecOn with
  | nil => rfl
  | append_singleton acts x ih =>
    rw [ofActs_concat, List.count_append]
    cases x with
    | create => simp [act, create, ih]
    | declare number name type =>
      cases h : (ofActs acts).registry.arena? number with
      | some a => simp [act_declare_of_some h, ih]
      | none => simp [act_declare_of_none h, ih]

theorem declarations_grow (before later : List Act) :
    (ofActs before).declarations <+: (ofActs (before ++ later)).declarations := by
  induction later using List.reverseRecOn with
  | nil => simp
  | append_singleton later x ih =>
    rw [← List.append_assoc, ofActs_concat]
    refine ih.trans ?_
    cases x with
    | create => exact List.prefix_refl _
    | declare number name type =>
      cases h : (ofActs (before ++ later)).registry.arena? number with
      | some a =>
        rw [act_declare_of_some h]
        exact List.prefix_append _ _
      | none => simp [act_declare_of_none h]

/-! ## What every act keeps -/

theorem getElem?_concat_eq_some {α : Type} {l : List α} {x y : α} (h : (l ++ [x])[i]? = some y) :
    l[i]? = some y ∨ i = l.length ∧ x = y := by
  rcases Nat.lt_trichotomy i l.length with hi | rfl | hi
  · rw [List.getElem?_append_left hi] at h
    exact .inl h
  · rw [List.getElem?_concat_length] at h
    exact .inr ⟨rfl, Option.some.inj h⟩
  · rw [List.getElem?_eq_none (by simp; omega)] at h
    cases h

theorem inArena_concat (number : Nat) (ds : List Declaration) (d : Declaration) :
    inArena number (ds ++ [d]) = if d.arena = number then inArena number ds ++ [d] else inArena number ds := by
  rw [inArena, List.filter_append]
  by_cases h : d.arena = number <;> simp [inArena, h]

/-- Arenas and identities are those that the journal tells. -/
structure Kept (j : Journal) : Prop where
  arena : ∀ number a, j.registry.arena? number = some a →
    a = ⟨number % UInt64.size, (inArena number j.declarations).map fun d => (d.name, d.type)⟩
  /-- The slot is the number of declarations that were made in the arena before. -/
  param : ∀ i (d : Declaration), j.declarations[i]? = some d → d.arena < j.registry.arenas.length ∧
    d.param = ⟨⟨d.arena % UInt64.size, (inArena d.arena (j.declarations.take i)).length⟩, d.name, d.type⟩
  slots : ∀ number, (inArena number j.declarations).map (·.param.id.slot) =
    List.range (inArena number j.declarations).length

theorem Kept.create (h : j.Kept) : (j.act .create).Kept where
  arena number a ha := by
    have ha : (j.registry.arenas ++ [⟨j.registry.nextToken, []⟩])[number]? = some a := ha
    rcases getElem?_concat_eq_some ha with ha | ⟨rfl, rfl⟩
    · exact h.arena number a ha
    · -- The new arena, in which nothing was declared so far.
      have hnone : inArena j.registry.arenas.length j.declarations = [] := by
        refine List.filter_eq_nil_iff.2 fun d hd heq => ?_
        obtain ⟨i, hi⟩ := List.mem_iff_getElem?.1 hd
        have := (h.param i d hi).1
        rw [beq_iff_eq] at heq
        omega
      rw [act, hnone]
      rfl
  param i d hd := by
    obtain ⟨hlt, hparam⟩ := h.param i d hd
    refine ⟨?_, hparam⟩
    simp only [act, Registry.create, List.length_append]
    omega
  slots := h.slots

theorem Kept.declare (h : j.Kept) (ha : j.registry.arena? number = some a) :
    (j.act (.declare number name type)).Kept := by
  obtain rfl := h.arena number a ha
  have hlt : number < j.registry.arenas.length := (List.getElem?_eq_some_iff.1 ha).1
  rw [act_declare_of_some ha]
  constructor
  case arena =>
    intro m b hb
    have hb : (j.registry.arenas.set number _)[m]? = some b := hb
    rw [List.getElem?_set] at hb
    rw [inArena_concat]
    by_cases hm : number = m
    · rw [if_pos hm, if_pos hlt] at hb
      cases hb
      rw [if_pos hm, List.map_append, hm]
      rfl
    · rw [if_neg hm] at hb ⊢
      exact h.arena m b hb
  case param =>
    intro i d hi
    rw [List.length_set]
    rcases getElem?_concat_eq_some hi with hi | ⟨rfl, rfl⟩
    · rw [List.take_append_of_le_length (Nat.le_of_lt (List.getElem?_eq_some_iff.1 hi).1)]
      exact h.param i d hi
    · refine ⟨hlt, ?_⟩
      rw [List.take_left]
      simp only [Arena.declare, List.length_map]
  case slots =>
    intro m
    rw [inArena_concat]
    split
    case isTrue hm =>
      rw [List.map_append, h.slots, List.length_append, List.length_singleton, List.range_succ, ← hm]
      simp only [Arena.declare, List.length_map, List.map_singleton]
    case isFalse => exact h.slots m

/-- **Every journal tells its arenas and identities.** -/
theorem kept (acts : List Act) : (ofActs acts).Kept := by
  induction acts using List.reverseRecOn with
  | nil =>
    exact ⟨fun _ _ h => (nomatch h), fun _ _ h => (nomatch h), fun _ => rfl⟩
  | append_singleton acts x ih =>
    rw [ofActs_concat]
    cases x with
    | create => exact ih.create
    | declare number name type =>
      cases h : (ofActs acts).registry.arena? number with
      | some a => exact ih.declare h
      | none =>
        rw [act_declare_of_none h]
        exact ih

/-! ## What an identity tells -/

theorem inArena_take (h : ds[i]? = some d) : inArena d.arena (ds.take i) ++ [d] <+: inArena d.arena ds := by
  have hnext : inArena d.arena (ds.take (i + 1)) = inArena d.arena (ds.take i) ++ [d] := by
    rw [List.take_add_one, h, Option.toList_some, inArena_concat, if_pos rfl]
  exact hnext ▸ (List.take_prefix _ ds).filter _

theorem getElem?_inArena (h : ds[i]? = some d) :
    (inArena d.arena ds)[(inArena d.arena (ds.take i)).length]? = some d := by
  obtain ⟨rest, hrest⟩ := inArena_take h
  rw [← hrest, List.append_assoc, List.getElem?_append_right (Nat.le_refl _), Nat.sub_self]
  rfl

theorem length_inArena_lt (h : ds[i]? = some d) (hik : i < k) :
    (inArena d.arena (ds.take i)).length < (inArena d.arena (ds.take k)).length := by
  have hk : (ds.take k)[i]? = some d := (List.getElem?_take_of_lt hik).trans h
  have hlen := (inArena_take hk).length_le
  rwa [List.take_take, Nat.min_eq_left (Nat.le_of_lt hik), List.length_append] at hlen

theorem token_eq_iff (hfew : j.registry.arenas.length ≤ UInt64.size) (hi : i < j.registry.arenas.length)
    (hk : k < j.registry.arenas.length) : i % UInt64.size = k % UInt64.size ↔ k = i := by
  rw [Nat.mod_eq_of_lt (Nat.lt_of_lt_of_le hi hfew), Nat.mod_eq_of_lt (Nat.lt_of_lt_of_le hk hfew)]
  exact eq_comm

/-- **No two declarations give the same identity.** -/
theorem Kept.id_inj (h : j.Kept) (hfew : j.registry.arenas.length ≤ UInt64.size) (hd : j.declarations[i]? = some d)
    (hd' : j.declarations[k]? = some d') (hid : d.param.id = d'.param.id) : i = k := by
  obtain ⟨harena, hparam⟩ := h.param i d hd
  obtain ⟨harena', hparam'⟩ := h.param k d' hd'
  rw [hparam, hparam', ParamId.mk.injEq, token_eq_iff hfew harena harena'] at hid
  obtain ⟨hsame, hslot⟩ := hid
  rw [hsame] at hslot
  rcases Nat.lt_trichotomy i k with hik | hik | hki
  · exact absurd hslot (Nat.ne_of_lt (length_inArena_lt hd hik))
  · exact hik
  · exact absurd hslot.symm (Nat.ne_of_lt (hsame ▸ length_inArena_lt hd' hki))

/-- **The arena that issued an identity finds the declaration; the others find nothing.** -/
theorem Kept.find? (h : j.Kept) (hfew : j.registry.arenas.length ≤ UInt64.size) (hd : d ∈ j.declarations)
    (ha : j.registry.arena? number = some a) :
    a.find? d.param.id = if number = d.arena then some d.param else none := by
  obtain rfl := h.arena number a ha
  obtain ⟨i, hi⟩ := List.mem_iff_getElem?.1 hd
  obtain ⟨harena, hparam⟩ := h.param i d hi
  have htoken := token_eq_iff hfew harena (List.getElem?_eq_some_iff.1 ha).1
  rw [hparam, Arena.find?, if_congr htoken rfl rfl]
  split
  case isTrue hnumber =>
    rw [hnumber, List.getElem?_map, getElem?_inArena hi]
    rfl
  case isFalse => rfl

/-- **Identities are unique and stable.**  Let a program create arenas and declare parameters in them in any order, with
no more arenas than there are tokens.  Every declaration in an arena that is there gives a parameter.  Two of these are
equal exactly if they come from the same declaration, whatever their names and types.  At any later time the arena that
issued an identity finds the parameter, with the name and the type that were declared, and no other arena finds
anything.  The slots in an arena are 0, 1, 2 and so on in the order of the declarations in it. -/
theorem identities_unique {acts : List Act} (hfew : acts.count .create ≤ UInt64.size) :
    (∀ number < acts.count .create, ∀ name type, ∃ p,
      (ofActs (acts ++ [.declare number name type])).declarations =
        (ofActs acts).declarations ++ [⟨number, name, type, p⟩]) ∧
    (∀ (i k : Nat) (d d' : Declaration), (ofActs acts).declarations[i]? = some d →
      (ofActs acts).declarations[k]? = some d' → ((d.param == d'.param) = true ↔ i = k)) ∧
    (∀ before later, acts = before ++ later → ∀ d ∈ (ofActs before).declarations,
      d.param.name = d.name ∧ d.param.type = d.type ∧ d.arena < acts.count .create ∧
      ∀ number < acts.count .create, ∃ a, (ofActs acts).registry.arena? number = some a ∧
        a.find? d.param.id = if number = d.arena then some d.param else none) ∧
    ∀ number, (inArena number (ofActs acts).declarations).map (·.param.id.slot) =
      List.range (inArena number (ofActs acts).declarations).length := by
  have h := kept acts
  simp only [← length_arenas acts] at hfew ⊢
  refine ⟨fun number hnumber name type => ?_, fun i k d d' hd hd' => ⟨fun heq => ?_, fun hik => ?_⟩,
    fun before later hacts d hd => ?_, h.slots⟩
  · rw [ofActs_concat, act_declare_of_some (List.getElem?_eq_getElem hnumber)]
    exact ⟨_, rfl⟩
  · exact h.id_inj hfew hd hd' (beq_iff_eq.1 heq)
  · subst hik
    obtain rfl := Option.some.inj (hd.symm.trans hd')
    exact ReflBEq.rfl
  · have hd : d ∈ (ofActs acts).declarations := hacts ▸ (declarations_grow before later).subset hd
    obtain ⟨i, hi⟩ := List.mem_iff_getElem?.1 hd
    obtain ⟨harena, hparam⟩ := h.param i d hi
    refine ⟨by rw [hparam], by rw [hparam], harena, fun number hnumber => ?_⟩
    exact ⟨_, List.getElem?_eq_getElem hnumber, h.find? hfew hd (List.getElem?_eq_getElem hnumber)⟩

/-- Two arenas, and a name that is declared in both, and once more in the first. -/
def interleaved : List Act :=
  [.create, .declare 0 "x" .int, .create, .declare 1 "x" .int, .declare 0 "x" .int]

/-- The parameter of the first declaration is still found, in its own arena alone, and the third one is another one. -/
theorem identities_unique_interleaved :
    interleaved.count .create ≤ UInt64.size ∧
    ((ofActs interleaved).declarations.map (·.param.id)) = [⟨0, 0⟩, ⟨1, 0⟩, ⟨0, 1⟩] ∧
    ∀ d ∈ (ofActs (interleaved.take 2)).declarations, ∀ number < 2, ∃ a,
      (ofActs interleaved).registry.arena? number = some a ∧
        a.find? d.param.id = if number = d.arena then some d.param else none := by
  have hfew : interleaved.count .create ≤ UInt64.size := by decide
  obtain ⟨-, -, hstable, -⟩ := identities_unique hfew
  exact ⟨hfew, by decide, fun d hd => (hstable (interleaved.take 2) (interleaved.drop 2) rfl d hd).2.2.2⟩

end Journal

end Splice.Registry
