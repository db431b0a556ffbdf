import Mathlib.Data.List.Pairwise
import TapeMachine.Proofs.Source.Spelling

/-!
# TapeMachine.Proofs.Source.Nesting — loops inside loops, and pairs inside pairs

A loop of a forest has an address, by which one can tell which loops are inside which.  A sequence
with opening and closing items has a `Matching` if the items can be paired without two pairs
crossing.  Where a sequence stands for a forest, one opening and one closing item for each loop
(`LaidOut`), it has a matching, and its pairs are inside one another as the loops are
(`LaidOut.exists_matching`).
-/

namespace TapeMachine

/-! ### Loops -/

/-- Where a node is in a forest: its number in the body it is in, after the address of the loop with
that body. -/
abbrev Address := List Nat

namespace Address

/-- The loop at the first address is around the one at the second. -/
def Encloses (outer inner : Address) : Prop := outer <+: inner ∧ outer ≠ inner

variable {outer a b : Address} {number number' : Nat}

theorem encloses_of_prefix (h : outer ++ [number] <+: a) : Encloses outer a := by
  refine ⟨(List.prefix_append _ _).trans h, ?_⟩
  rintro rfl
  have hlength := h.length_le
  rw [List.length_append, List.length_singleton] at hlength
  omega

/-- Different nodes of a body have nothing inside in common. -/
theorem not_prefix_of_ne (ha : outer ++ [number] <+: a) (hb : outer ++ [number'] <+: b)
    (hne : number ≠ number') : ¬ a <+: b := by
  intro hab
  have hpre := List.prefix_of_prefix_length_le (ha.trans hab) hb (by simp)
  have hsame := hpre.eq_of_length (by simp)
  exact hne (by simpa using hsame)

end Address

mutual

/-- The loops of a node at an address: first the node itself, if it is one. -/
def Node.loops (address : Address) : Node → List Address
  | .leaf _ _ => []
  | .loop _ body => address :: Forest.loops address 0 body

/-- The loops of the nodes from a number on in the body of `outer`, in the order of their starts. -/
def Forest.loops (outer : Address) (number : Nat) : List Node → List Address
  | [] => []
  | node :: rest => node.loops (outer ++ [number]) ++ Forest.loops outer (number + 1) rest

end

mutual

theorem Node.prefix_of_mem_loops {node : Node} {address a : Address} (h : a ∈ node.loops address) :
    address <+: a := by
  cases node with
  | leaf action argument => cases h
  | loop offset body =>
    rcases List.mem_cons.mp h with rfl | hmem
    · exact List.prefix_refl _
    · obtain ⟨number, -, hpre⟩ := Forest.prefix_of_mem_loops hmem
      exact (List.prefix_append _ _).trans hpre

theorem Forest.prefix_of_mem_loops {forest : List Node} {outer a : Address} {number : Nat}
    (h : a ∈ Forest.loops outer number forest) : ∃ k, number ≤ k ∧ outer ++ [k] <+: a := by
  cases forest with
  | nil => cases h
  | cons node rest =>
    rcases List.mem_append.mp h with hmem | hmem
    · exact ⟨number, Nat.le_refl _, Node.prefix_of_mem_loops hmem⟩
    · obtain ⟨k, hle, hpre⟩ := Forest.prefix_of_mem_loops hmem
      exact ⟨k, by omega, hpre⟩

end

/-! ### Pairs -/

/-- An item that belongs to a pair. -/
inductive Bracket where
  | opening
  | closing
  deriving DecidableEq, Repr, Inhabited

/-- The second pair of places is between the two places of the first. -/
def Encloses (outer inner : Nat × Nat) : Prop := outer.1 < inner.1 ∧ inner.2 < outer.2

/-- Every opening item is paired with one closing item behind it and every closing item with one
opening item, and no two pairs cross.  The pairs are listed by their opening items. -/
structure Matching {α : Type} (bracket? : α → Option Bracket) (items : List α)
    (pairs : List (Nat × Nat)) : Prop where
  paired : ∀ first last, (first, last) ∈ pairs → first < last ∧
    items[first]?.bind bracket? = some .opening ∧ items[last]?.bind bracket? = some .closing
  opening : ∀ first, items[first]?.bind bracket? = some .opening → ∃! last, (first, last) ∈ pairs
  closing : ∀ last, items[last]?.bind bracket? = some .closing → ∃! first, (first, last) ∈ pairs
  nested : pairs.Pairwise fun a b => a.1 < b.1 ∧ (a.2 < b.1 ∨ b.2 < a.2)

/-- Two lists are of one length, and in both the same members enclose the same members. -/
structure SameNesting {α β : Type} (R : α → α → Prop) (S : β → β → Prop) (xs : List α)
    (ys : List β) : Prop where
  length : xs.length = ys.length
  encloses : ∀ (i j : Nat) (x x' : α) (y y' : β), xs[i]? = some x → xs[j]? = some x' →
    ys[i]? = some y → ys[j]? = some y' → (R x x' ↔ S y y')

theorem SameNesting.symm {α β : Type} {R : α → α → Prop} {S : β → β → Prop} {xs : List α}
    {ys : List β} (h : SameNesting R S xs ys) : SameNesting S R ys xs :=
  ⟨h.length.symm, fun i j y y' x x' hy hy' hx hx' => (h.encloses i j x x' y y' hx hx' hy hy').symm⟩

theorem SameNesting.trans {α β γ : Type} {R : α → α → Prop} {S : β → β → Prop} {T : γ → γ → Prop}
    {xs : List α} {ys : List β} {zs : List γ} (h : SameNesting R S xs ys)
    (h' : SameNesting S T ys zs) : SameNesting R T xs zs := by
  refine ⟨h.length.trans h'.length, fun i j x x' z z' hx hx' hz hz' => ?_⟩
  have hlt : ∀ {k : Nat} {x : α}, xs[k]? = some x → ∃ y, ys[k]? = some y := by
    intro k x hx
    have hk := (List.getElem?_eq_some_iff.mp hx).1
    rw [h.length] at hk
    exact ⟨_, List.getElem?_eq_getElem hk⟩
  obtain ⟨y, hy⟩ := hlt hx
  obtain ⟨y', hy'⟩ := hlt hx'
  exact (h.encloses i j x x' y y' hx hx' hy hy').trans (h'.encloses i j y y' z z' hy hy' hz hz')

/-- What is said of the members of one list, in their order, is said of two lists made of it. -/
theorem sameNesting_map {α β γ : Type} {R : α → α → Prop} {S : β → β → Prop} {f : γ → α} {g : γ → β}
    {zs : List γ} (hself : ∀ z ∈ zs, (R (f z) (f z) ↔ S (g z) (g z)))
    (h : zs.Pairwise fun z z' =>
      (R (f z) (f z') ↔ S (g z) (g z')) ∧ (R (f z') (f z) ↔ S (g z') (g z))) :
    SameNesting R S (zs.map f) (zs.map g) := by
  have hall : ∀ ⦃z⦄, z ∈ zs → ∀ ⦃z'⦄, z' ∈ zs → (R (f z) (f z') ↔ S (g z) (g z')) :=
    List.Pairwise.forall_of_forall_of_flip hself (h.imp And.left) (h.imp And.right)
  refine ⟨by rw [List.length_map, List.length_map], fun i j x x' y y' hx hx' hy hy' => ?_⟩
  rw [List.getElem?_map] at hx hx' hy hy'
  obtain ⟨z, hz, rfl⟩ := Option.map_eq_some_iff.mp hx
  obtain ⟨z', hz', rfl⟩ := Option.map_eq_some_iff.mp hx'
  rw [hz] at hy
  rw [hz'] at hy'
  cases hy
  cases hy'
  exact hall (List.mem_of_getElem? hz) (List.mem_of_getElem? hz')

/-- Pairs that do not cross have no place in common. -/
theorem eq_of_nested {pairs : List (Nat × Nat)} (hlt : ∀ pair ∈ pairs, pair.1 < pair.2)
    (hnested : pairs.Pairwise fun a b => a.1 < b.1 ∧ (a.2 < b.1 ∨ b.2 < a.2)) {a b : Nat × Nat}
    (ha : a ∈ pairs) (hb : b ∈ pairs) (hsame : a.1 = b.1 ∨ a.2 = b.2) : a = b := by
  have hapart : pairs.Pairwise fun a b => a.1 ≠ b.1 ∧ a.2 ≠ b.2 := by
    refine hnested.imp_of_mem fun {a b} ha hb h => ?_
    have := hlt a ha
    have := hlt b hb
    omega
  have hall : ∀ ⦃a⦄, a ∈ pairs → ∀ ⦃b⦄, b ∈ pairs → a.1 = b.1 ∨ a.2 = b.2 → a = b := by
    refine List.Pairwise.forall_of_forall_of_flip (fun _ _ _ => rfl) ?_ ?_
    · exact hapart.imp fun hne hsame => absurd hsame (by omega)
    · refine hapart.imp fun {a b} hne hsame => absurd hsame ?_
      omega
  exact hall ha hb hsame

/-! ### Pairs of loops

What is proved by going through a forest is about each loop together with its pair. -/

/-- A loop with the pair of items that stands for it. -/
structure Site where
  address : Address
  first : Nat
  last : Nat

namespace Site

/-- Where the two items of the pair are. -/
def place (site : Site) : Bracket → Nat
  | .opening => site.first
  | .closing => site.last

/-- The pair alone. -/
def pair (site : Site) : Nat × Nat := (site.first, site.last)

/-- The second site comes after the first, and its loop and its pair are both inside those of the
first or both outside. -/
inductive Ordered (s t : Site) : Prop
  | inside (haddress : s.address.Encloses t.address) (hfirst : s.first < t.first)
      (hlast : t.last < s.last)
  | behind (haddress : ¬ s.address <+: t.address) (haddress' : ¬ t.address <+: s.address)
      (h : s.last < t.first)

variable {s t : Site}

/-- Which of the two encloses the other. -/
theorem Ordered.encloses (h : Ordered s t) (hs : s.first < s.last) (ht : t.first < t.last) :
    (s.address.Encloses t.address ↔ Encloses s.pair t.pair) ∧
      (t.address.Encloses s.address ↔ Encloses t.pair s.pair) := by
  cases h with
  | inside haddress hfirst hlast =>
    refine ⟨iff_of_true haddress ⟨hfirst, hlast⟩, iff_of_false ?_ ?_⟩
    · rintro ⟨hpre, hne⟩
      exact hne (hpre.eq_of_length_le haddress.1.length_le)
    · rintro ⟨hlt, -⟩
      exact Nat.lt_asymm hfirst hlt
  | behind haddress haddress' hlt =>
    refine ⟨iff_of_false (fun h => haddress h.1) ?_, iff_of_false (fun h => haddress' h.1) ?_⟩
    · rintro ⟨-, hlast⟩
      exact Nat.lt_asymm (Nat.lt_trans hlt ht) hlast
    · rintro ⟨hfirst, hlast⟩
      exact Nat.lt_asymm (Nat.lt_trans hfirst hs) hlt

end Site

/-! ### Sequences that stand for forests -/

/-- A sequence with a part for each node of a forest: the part of a leaf has no brackets, and the
part of a loop is that of its body between two brackets that `Loop` allows around a part so long. -/
inductive LaidOut {α : Type} (bracket? : α → Option Bracket) (Loop : Nat → α → α → Prop) :
    List α → List Node → Prop
  | nil : LaidOut bracket? Loop [] []
  | leaf {part text : List α} {action : Action} {argument : Int32} {forest : List Node}
      (hpart : ∀ item ∈ part, bracket? item = none) (hrest : LaidOut bracket? Loop text forest) :
      LaidOut bracket? Loop (part ++ text) (.leaf action argument :: forest)
  | loop {head last : α} {inner text : List α} {offset : Nat} {body forest : List Node}
      (hloop : Loop inner.length head last) (hbody : LaidOut bracket? Loop inner body)
      (hrest : LaidOut bracket? Loop text forest) :
      LaidOut bracket? Loop (head :: (inner ++ [last]) ++ text) (.loop offset body :: forest)

/-- A loop relation whose items are an opening and a closing one. -/
def Brackets {α : Type} (bracket? : α → Option Bracket) (Loop : Nat → α → α → Prop) : Prop :=
  ∀ length head last, Loop length head last →
    bracket? head = some .opening ∧ bracket? last = some .closing

/-- The sites in a part of a sequence, from one place up to another: every bracket in it belongs to
one of them. -/
structure Sited {α : Type} (bracket? : α → Option Bracket) (Loop : Nat → α → α → Prop)
    (whole : List α) (start stop : Nat) (sites : List Site) : Prop where
  within : ∀ site ∈ sites, start ≤ site.first ∧ site.first < site.last ∧ site.last < stop
  loop : ∀ site ∈ sites, ∃ head last, whole[site.first]? = some head ∧
    whole[site.last]? = some last ∧ Loop (site.last - site.first - 1) head last
  complete : ∀ place bracket, start ≤ place → place < stop →
    whole[place]?.bind bracket? = some bracket → ∃ site ∈ sites, site.place bracket = place
  ordered : sites.Pairwise Site.Ordered

theorem PartAt.getElem? {α : Type} {whole part : List α} {place : Nat} (h : PartAt whole place part)
    {index : Nat} (hlt : index < part.length) : whole[place + index]? = part[index]? := by
  obtain ⟨rest, hrest⟩ := h
  rw [← List.getElem?_drop, ← hrest, List.getElem?_append_left hlt]

namespace Sited

variable {α : Type} {bracket? : α → Option Bracket} {Loop : Nat → α → α → Prop} {whole : List α}
  {start middle stop : Nat} {front back sites : List Site}

/-- A part without brackets. -/
theorem leaf {part : List α} (h : PartAt whole start part)
    (hpart : ∀ item ∈ part, bracket? item = none) :
    Sited bracket? Loop whole start (start + part.length) [] := by
  refine ⟨nofun, nofun, fun place bracket hle hlt hbracket => ?_, .nil⟩
  obtain ⟨index, rfl⟩ := Nat.exists_eq_add_of_le hle
  have hindex : index < part.length := by omega
  rw [h.getElem? hindex, List.getElem?_eq_getElem hindex, Option.bind_some,
    hpart _ (List.getElem_mem hindex)] at hbracket
  cases hbracket

theorem append (hfront : Sited bracket? Loop whole start middle front)
    (hback : Sited bracket? Loop whole middle stop back) (hle : start ≤ middle)
    (hle' : middle ≤ stop)
    (hapart : ∀ s ∈ front, ∀ t ∈ back, ¬ s.address <+: t.address ∧ ¬ t.address <+: s.address) :
    Sited bracket? Loop whole start stop (front ++ back) where
  within site hmem := by
    rcases List.mem_append.mp hmem with hmem | hmem
    · have := hfront.within site hmem
      omega
    · have := hback.within site hmem
      omega
  loop site hmem := by
    rcases List.mem_append.mp hmem with hmem | hmem
    · exact hfront.loop site hmem
    · exact hback.loop site hmem
  complete place bracket hstart hstop hbracket := by
    by_cases hlt : place < middle
    · obtain ⟨site, hmem, heq⟩ := hfront.complete place bracket hstart hlt hbracket
      exact ⟨site, List.mem_append_left _ hmem, heq⟩
    · obtain ⟨site, hmem, heq⟩ := hback.complete place bracket (by omega) hstop hbracket
      exact ⟨site, List.mem_append_right _ hmem, heq⟩
  ordered := by
    refine List.pairwise_append.mpr ⟨hfront.ordered, hback.ordered, fun s hs t ht => ?_⟩
    obtain ⟨haddress, haddress'⟩ := hapart s hs t ht
    have hwithin := hfront.within s hs
    have hwithin' := hback.within t ht
    exact .behind haddress haddress' (by omega)

/-- A part between two brackets. -/
theorem around (hsites : Sited bracket? Loop whole (start + 1) stop sites) (hle : start + 1 ≤ stop)
    (hbrackets : Brackets bracket? Loop) {head last : α} (hhead : whole[start]? = some head)
    (hlast : whole[stop]? = some last) (hloop : Loop (stop - start - 1) head last)
    {address : Address} (haddress : ∀ site ∈ sites, address.Encloses site.address) :
    Sited bracket? Loop whole start (stop + 1) (⟨address, start, stop⟩ :: sites) where
  within site hmem := by
    rcases List.mem_cons.mp hmem with rfl | hmem
    · exact ⟨Nat.le_refl _, hle, Nat.lt_succ_self _⟩
    · have := hsites.within site hmem
      omega
  loop site hmem := by
    rcases List.mem_cons.mp hmem with rfl | hmem
    · exact ⟨head, last, hhead, hlast, hloop⟩
    · exact hsites.loop site hmem
  complete place bracket hstart hstop hbracket := by
    rcases Nat.eq_or_lt_of_le hstart with rfl | hlt
    · rw [hhead, Option.bind_some, (hbrackets _ _ _ hloop).1] at hbracket
      cases hbracket
      exact ⟨_, List.mem_cons_self, rfl⟩
    · rcases Nat.eq_or_lt_of_le (Nat.le_of_lt_succ hstop) with rfl | hlt'
      · rw [hlast, Option.bind_some, (hbrackets _ _ _ hloop).2] at hbracket
        cases hbracket
        exact ⟨_, List.mem_cons_self, rfl⟩
      · obtain ⟨site, hmem, heq⟩ := hsites.complete place bracket hlt hlt' hbracket
        exact ⟨site, List.mem_cons_of_mem _ hmem, heq⟩
  ordered := by
    refine List.pairwise_cons.mpr ⟨fun site hmem => ?_, hsites.ordered⟩
    have hwithin := hsites.within site hmem
    exact .inside (haddress site hmem) hwithin.1 hwithin.2.2

end Sited

section

variable {α : Type} {bracket? : α → Option Bracket} {Loop : Nat → α → α → Prop}

/-- The sites of a part that stands for the nodes from a number on in some body. -/
theorem LaidOut.exists_sites (hbrackets : Brackets bracket? Loop) {text : List α}
    {forest : List Node} (h : LaidOut bracket? Loop text forest) {whole : List α} {place : Nat}
    (hpart : PartAt whole place text) (outer : Address) (number : Nat) :
    ∃ sites, sites.map Site.address = Forest.loops outer number forest ∧
      Sited bracket? Loop whole place (place + text.length) sites := by
  induction h generalizing place outer number with
  | nil => exact ⟨[], rfl, .leaf hpart nofun⟩
  | @leaf part text action argument forest hnone hrest ih =>
    obtain ⟨hfront, hback⟩ := hpart.append
    obtain ⟨sites, haddress, hsites⟩ := ih hback outer (number + 1)
    refine ⟨sites, haddress, ?_⟩
    rw [List.length_append, ← Nat.add_assoc]
    exact (Sited.leaf hfront hnone).append hsites (by omega) (by omega) nofun
  | @loop head last inner text offset body forest hloop hbody hrest ihbody ih =>
    obtain ⟨hfront, hback⟩ := hpart.append
    obtain ⟨hhead, hinner, hlast⟩ := hfront.between
    let address := outer ++ [number]
    obtain ⟨inside, hinside, hsites⟩ := ihbody hinner address 0
    obtain ⟨behind, hbehind, hsites'⟩ := ih hback outer (number + 1)
    have hlength : place + 1 + inner.length + 1 = place + (head :: (inner ++ [last])).length := by
      rw [List.length_cons, List.length_append, List.length_singleton]
      omega
    have hencloses : ∀ site ∈ inside, address.Encloses site.address := by
      intro site hmem
      have hloops : site.address ∈ Forest.loops address 0 body := by
        rw [← hinside]
        exact List.mem_map_of_mem hmem
      obtain ⟨k, -, hpre⟩ := Forest.prefix_of_mem_loops hloops
      exact Address.encloses_of_prefix hpre
    have hcount : place + 1 + inner.length - place - 1 = inner.length := by omega
    have hnode := hsites.around (by omega) hbrackets hhead hlast (by rwa [hcount]) hencloses
    rw [hlength] at hnode
    have haddress : (⟨address, place, place + 1 + inner.length⟩ :: inside).map Site.address =
        (Node.loop offset body).loops address := congrArg (address :: ·) hinside
    refine ⟨⟨address, place, place + 1 + inner.length⟩ :: inside ++ behind, ?_, ?_⟩
    · rw [List.map_append, haddress, hbehind]
      rfl
    · rw [List.length_append, ← Nat.add_assoc]
      refine hnode.append hsites' (by omega) (by omega) fun s hs t ht => ?_
      have hs' : s.address ∈ (Node.loop offset body).loops address := by
        rw [← haddress]
        exact List.mem_map_of_mem hs
      have ht' : t.address ∈ Forest.loops outer (number + 1) forest := by
        rw [← hbehind]
        exact List.mem_map_of_mem ht
      have hpre := Node.prefix_of_mem_loops hs'
      obtain ⟨k, hle, hpre'⟩ := Forest.prefix_of_mem_loops ht'
      exact ⟨Address.not_prefix_of_ne hpre hpre' (by omega),
        Address.not_prefix_of_ne hpre' hpre (by omega)⟩

variable {whole : List α} {sites : List Site}

/-- The pairs of all sites of a sequence match its brackets. -/
theorem Sited.matching (hbrackets : Brackets bracket? Loop)
    (h : Sited bracket? Loop whole 0 whole.length sites) :
    Matching bracket? whole (sites.map Site.pair) := by
  have hlt : ∀ pair ∈ sites.map Site.pair, pair.1 < pair.2 := by
    rw [List.forall_mem_map]
    exact fun site hmem => (h.within site hmem).2.1
  have hnested : (sites.map Site.pair).Pairwise fun a b => a.1 < b.1 ∧ (a.2 < b.1 ∨ b.2 < a.2) := by
    rw [List.pairwise_map]
    refine h.ordered.imp_of_mem fun {s t} hs ht hordered => ?_
    have hwithin := h.within s hs
    cases hordered with
    | inside haddress hfirst hlast => exact ⟨hfirst, .inr hlast⟩
    | behind haddress haddress' hbehind => exact ⟨Nat.lt_trans hwithin.2.1 hbehind, .inl hbehind⟩
  have hcomplete : ∀ place bracket, whole[place]?.bind bracket? = some bracket →
      ∃ site ∈ sites, site.place bracket = place := by
    intro place bracket hbracket
    refine h.complete place bracket (Nat.zero_le _) ?_ hbracket
    by_contra hge
    rw [List.getElem?_eq_none (Nat.le_of_not_lt hge)] at hbracket
    cases hbracket
  refine ⟨fun first last hmem => ?_, fun first hfirst => ?_, fun last hlast => ?_, hnested⟩
  · obtain ⟨site, hsite, heq⟩ := List.mem_map.mp hmem
    obtain ⟨rfl, rfl⟩ := Prod.mk.inj heq
    obtain ⟨head, tail, hhead, htail, hloop⟩ := h.loop site hsite
    rw [hhead, htail]
    exact ⟨hlt _ hmem, hbrackets _ _ _ hloop⟩
  · obtain ⟨site, hmem, rfl⟩ := hcomplete first .opening hfirst
    have hpair : site.pair ∈ sites.map Site.pair := List.mem_map_of_mem hmem
    refine ⟨site.last, hpair, fun last hother => ?_⟩
    exact congrArg Prod.snd (eq_of_nested hlt hnested hother hpair (.inl rfl))
  · obtain ⟨site, hmem, rfl⟩ := hcomplete last .closing hlast
    have hpair : site.pair ∈ sites.map Site.pair := List.mem_map_of_mem hmem
    refine ⟨site.first, hpair, fun first hother => ?_⟩
    exact congrArg Prod.fst (eq_of_nested hlt hnested hother hpair (.inr rfl))

/-- Loops and pairs are inside one another in the same way. -/
theorem Sited.sameNesting {start stop : Nat} (h : Sited bracket? Loop whole start stop sites) :
    SameNesting Address.Encloses Encloses (sites.map Site.address) (sites.map Site.pair) := by
  refine sameNesting_map (fun site hmem => ?_) ?_
  · exact iff_of_false (fun hself => hself.2 rfl) (fun hself => Nat.lt_irrefl _ hself.1)
  · refine h.ordered.imp_of_mem fun {s t} hs ht hordered => ?_
    exact hordered.encloses (h.within s hs).2.1 (h.within t ht).2.1

/-- A sequence that stands for a forest has a matching, nested as the loops of the forest are. -/
theorem LaidOut.exists_matching (hbrackets : Brackets bracket? Loop) {text : List α}
    {forest : List Node} (h : LaidOut bracket? Loop text forest) :
    ∃ pairs, Matching bracket? text pairs ∧
      SameNesting Address.Encloses Encloses (Forest.loops [] 0 forest) pairs ∧
      ∀ first last, (first, last) ∈ pairs → ∃ head tail, text[first]? = some head ∧
        text[last]? = some tail ∧ Loop (last - first - 1) head tail := by
  have hpart : PartAt text 0 text := List.prefix_refl _
  obtain ⟨sites, haddress, hsites⟩ := h.exists_sites hbrackets hpart [] 0
  rw [Nat.zero_add] at hsites
  refine ⟨sites.map Site.pair, hsites.matching hbrackets, ?_, fun first last hmem => ?_⟩
  · rw [← haddress]
    exact hsites.sameNesting
  · obtain ⟨site, hsite, heq⟩ := List.mem_map.mp hmem
    obtain ⟨rfl, rfl⟩ := Prod.mk.inj heq
    exact hsites.loop site hsite

end

end TapeMachine
