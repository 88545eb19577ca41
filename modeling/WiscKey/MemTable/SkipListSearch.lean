import WiscKey.MemTable.SkipList
import WiscKey.Library.Cursor
import Mathlib.Data.List.Perm.Basic
import Mathlib.Data.List.Range
import Mathlib.Tactic.Ring

/-!
# Searches of a skip list

The levels of a skip list are lists of its nodes in the order of their keys, each a sub-list of
the one below. A search for keys that pass in front of those that do not ends, on every level, at
the last node that passes.
-/

namespace WiscKey

section Front

variable {α : Type} {p : α → Bool} {l front rest : List α}

/-- What passes is in front of what does not. -/
def PassesFirst (p : α → Bool) (l : List α) : Prop := l.Pairwise fun a b => p b = true → p a = true

/-- The elements that pass are those in front of the first that does not. -/
theorem PassesFirst.split (h : PassesFirst p (front ++ rest)) (hfront : ∀ a ∈ front, p a = true)
    (hrest : ∀ a ∈ rest.head?, p a = false) :
    (front ++ rest).filter p = front ∧ (front ++ rest).find? (fun a => !p a) = rest.head? := by
  have hnone : ∀ a ∈ rest, p a = false := by
    cases rest with
    | nil => nofun
    | cons b rest =>
      have hb := hrest b rfl
      intro a ha
      rcases List.mem_cons.mp ha with rfl | ha
      · exact hb
      · have hpair := (List.pairwise_cons.mp (List.pairwise_append.mp h).2.1).1 a ha
        rw [Bool.eq_false_iff]
        intro hpa
        rw [hpair hpa] at hb
        cases hb
  constructor
  · rw [List.filter_append, List.filter_eq_self.mpr hfront,
      List.filter_eq_nil_iff.mpr fun a ha => by simp [hnone a ha], List.append_nil]
  · have hskip : front.find? (fun a => !p a) = none := by
      rw [List.find?_eq_none]
      intro a ha
      simp [hfront a ha]
    rw [List.find?_append, hskip, Option.none_or]
    cases rest with
    | nil => rfl
    | cons b rest => rw [List.find?_cons_of_pos (by simp [hrest b rfl])]; rfl

end Front

namespace SkipList

variable {K : Type} {s : SkipList K}

/-- From a node on, the links of a level lead through these nodes to the end. -/
def Chain (s : SkipList K) (level : Nat) : NodePtr → List (Nat × K) → Prop
  | x, [] => s.next x level = some none
  | x, e :: l => s.next x level = some (some e.1) ∧ s.keyAt e.1 = some e.2 ∧
      Chain s level (.node e.1) l

/-- The last of some nodes behind another one. -/
def lastOf : NodePtr → List (Nat × K) → NodePtr
  | x, [] => x
  | _, e :: l => lastOf (.node e.1) l

@[simp] theorem lastOf_concat (x : NodePtr) (l : List (Nat × K)) (e : Nat × K) :
    lastOf x (l ++ [e]) = .node e.1 := by
  induction l generalizing x with
  | nil => rfl
  | cons d l ih => exact ih (.node d.1)

theorem Chain.behind {level : Nat} {x : NodePtr} {front rest : List (Nat × K)}
    (h : s.Chain level x (front ++ rest)) : s.Chain level (lastOf x front) rest := by
  induction front generalizing x with
  | nil => exact h
  | cons e front ih => exact ih h.2.2

theorem Chain.keyAt {level : Nat} {x : NodePtr} {l : List (Nat × K)} (h : s.Chain level x l) :
    ∀ e ∈ l, s.keyAt e.1 = some e.2 := by
  induction l generalizing x with
  | nil => nofun
  | cons d l ih =>
    intro e he
    rcases List.mem_cons.mp he with rfl | he
    · exact h.2.1
    · exact ih h.2.2 e he

variable {cmp : K → K → Ordering}

/-- The nodes of each level, with their keys, in the order of the keys. -/
structure Levels (cmp : K → K → Ordering) (s : SkipList K) (L : Nat → List (Nat × K)) : Prop where
  chain : ∀ i < kMaxHeight, s.Chain i .head (L i)
  increasing : Increasing cmp ((L 0).map Prod.snd)
  sublist : ∀ i, (L (i + 1)).Sublist (L i)
  above : ∀ i, s.maxHeight ≤ i → L i = []
  one_le : 1 ≤ s.maxHeight
  le_kMaxHeight : s.maxHeight ≤ kMaxHeight
  places : ((L 0).map Prod.fst).Perm (List.range s.nodes.length)

namespace Levels

variable {L : Nat → List (Nat × K)}

theorem empty (cmp : K → K → Ordering) : Levels cmp (.empty : SkipList K) fun _ => [] where
  chain i hi := by
    change (List.replicate kMaxHeight none)[i]? = some none
    rw [List.getElem?_replicate, if_pos hi]
  increasing := List.Pairwise.nil
  sublist _ := .slnil
  above _ _ := rfl
  one_le := Nat.le_refl 1
  le_kMaxHeight := show 1 ≤ kMaxHeight by decide
  places := .nil

theorem sublist_zero (h : Levels cmp s L) (i : Nat) : (L i).Sublist (L 0) := by
  induction i with
  | zero => exact .refl _
  | succ i ih => exact (h.sublist i).trans ih

theorem length_le (h : Levels cmp s L) (i : Nat) : (L i).length ≤ s.nodes.length := by
  have hlen := h.places.length_eq
  rw [List.length_map, List.length_range] at hlen
  exact hlen ▸ (h.sublist_zero i).length_le

/-- A search on one level, where it goes one down. -/
theorem descend (h : Levels cmp s L) {passes : K → Bool}
    (hfirst : PassesFirst (fun e => passes e.2) (L 0)) {level : Nat} {front : List (Nat × K)}
    (hfront : (L (level + 1)).filter (fun e => passes e.2) = front) :
    ∃ front' rest', L level = front' ++ rest' ∧ (∀ e ∈ front', passes e.2 = true) ∧
      lastOf .head front = lastOf .head front' := by
  rcases List.eq_nil_or_concat front with rfl | ⟨before, e, rfl⟩
  · exact ⟨[], L level, rfl, nofun, rfl⟩
  · have he : e ∈ (L (level + 1)).filter fun e => passes e.2 := by
      rw [hfront]
      simp
    obtain ⟨hmem, hpasses⟩ := List.mem_filter.mp he
    obtain ⟨u, v, hsplit⟩ := List.append_of_mem ((h.sublist level).subset hmem)
    have hpair := hfirst.sublist (h.sublist_zero level)
    rw [hsplit] at hpair
    refine ⟨u ++ [e], v, by simp [hsplit], fun d hd => ?_, by simp⟩
    rcases List.mem_append.mp hd with hd | hd
    · exact (List.pairwise_append.mp hpair).2.2 d hd e List.mem_cons_self hpasses
    · obtain rfl := List.mem_singleton.mp hd
      exact hpasses

/-- What a search hands back. -/
def Found (L : Nat → List (Nat × K)) (passes : K → Bool) (level : Nat)
    (prev : List (Option NodePtr)) (r : NodePtr × Option Nat × List (Option NodePtr)) : Prop :=
  r.1 = lastOf .head ((L 0).filter fun e => passes e.2) ∧
    r.2.1 = ((L 0).find? fun e => !passes e.2).map Prod.fst ∧
    r.2.2.length = prev.length ∧
    (∀ i ≤ level, r.2.2[i]? = some (some (lastOf .head ((L i).filter fun e => passes e.2)))) ∧
    ∀ i > level, r.2.2[i]? = prev[i]?

/-- A search from a node on a level that it came to ends on every level below at the last node
that passes. -/
theorem search (h : Levels cmp s L) {passes : K → Bool}
    (hfirst : PassesFirst (fun e => passes e.2) (L 0)) (rounds level : Nat)
    (front rest : List (Nat × K)) (prev : List (Option NodePtr)) (hlevel : level < kMaxHeight)
    (hprev : prev.length = kMaxHeight) (hsplit : L level = front ++ rest)
    (hfront : ∀ e ∈ front, passes e.2 = true)
    (hrounds : rest.length + 1 + level * (s.nodes.length + 1) ≤ rounds) :
    ∃ r, s.search passes rounds (lastOf .head front) level prev = some r ∧
      Found L passes level prev r := by
  induction rounds generalizing level front rest prev with
  | zero => omega
  | succ rounds ih =>
    have hchain : s.Chain level (lastOf .head front) rest := by
      have hall := h.chain level hlevel
      rw [hsplit] at hall
      exact hall.behind
    have hpair := hfirst.sublist (h.sublist_zero level)
    rw [hsplit] at hpair
    -- one level down, with the last node that passes entered in prev
    have hdown : (∀ e ∈ rest.head?, passes e.2 = false) → ∃ r,
        (if level = 0 then some (lastOf .head front, rest.head?.map Prod.fst,
            prev.set level (some (lastOf .head front)))
          else s.search passes rounds (lastOf .head front) (level - 1)
            (prev.set level (some (lastOf .head front)))) = some r ∧
        Found L passes level prev r := by
      intro hhead
      obtain ⟨hfilter, hfind⟩ := PassesFirst.split hpair hfront hhead
      rw [← hsplit] at hfilter hfind
      have hentry : (prev.set level (some (lastOf .head front)))[level]? =
          some (some (lastOf .head front)) := List.getElem?_set_self (by omega)
      rcases Nat.eq_zero_or_pos level with rfl | hpos
      · refine ⟨_, if_pos rfl, by rw [hfilter], by rw [hfind], List.length_set .., ?_, ?_⟩
        · intro i hi
          obtain rfl : i = 0 := by omega
          rw [hentry, hfilter]
        · intro i hi
          exact List.getElem?_set_ne (by omega)
      · obtain ⟨below, rfl⟩ : ∃ below, level = below + 1 := ⟨level - 1, by omega⟩
        obtain ⟨front', rest', hsplit', hfront', hlast⟩ := h.descend hfirst hfilter
        have hle := h.length_le below
        rw [hsplit', List.length_append] at hle
        have hmul : (below + 1) * (s.nodes.length + 1) =
            below * (s.nodes.length + 1) + (s.nodes.length + 1) := Nat.succ_mul ..
        obtain ⟨r, hr, hlower, hnode, hlen, hfound, hrest⟩ := ih below front' rest'
          (prev.set (below + 1) (some (lastOf .head front))) (by omega)
          (by rw [List.length_set, hprev]) hsplit' hfront' (by omega)
        refine ⟨r, ?_, hlower, hnode, ?_, ?_, ?_⟩
        · rw [if_neg (by omega), Nat.add_sub_cancel, hlast]
          rw [hlast] at hr
          exact hr
        · rw [hlen, List.length_set]
        · intro i hi
          rcases Nat.lt_or_ge below i with hlt | hge
          · obtain rfl : i = below + 1 := by omega
            rw [hrest _ hlt, hentry, hfilter]
          · exact hfound i hge
        · intro i hi
          rw [hrest i (by omega), List.getElem?_set_ne (by omega)]
    cases rest with
    | nil =>
      rw [SkipList.search, hchain]
      exact hdown nofun
    | cons e rest =>
      obtain ⟨hnext, hkey, -⟩ := hchain
      rw [SkipList.search, hnext]
      simp only [hkey]
      cases hpasses : passes e.2 with
      | true =>
        rw [if_pos rfl]
        have hlast : NodePtr.node e.1 = lastOf .head (front ++ [e]) := by simp
        rw [hlast]
        rw [List.length_cons] at hrounds
        refine ih level _ rest prev hlevel hprev (by simp [hsplit]) (fun d hd => ?_) (by omega)
        rcases List.mem_append.mp hd with hd | hd
        · exact hfront d hd
        · obtain rfl := List.mem_singleton.mp hd
          exact hpasses
      | false =>
        rw [if_neg Bool.false_ne_true]
        refine hdown fun d hd => ?_
        obtain rfl : e = d := Option.some.inj hd
        exact hpasses

/-- A search ends at the last node that passes, in front of the first that does not. -/
theorem searchAll (h : Levels cmp s L) (passes : K → Bool)
    (hfirst : PassesFirst (fun e => passes e.2) (L 0)) :
    ∃ x n prev, s.searchAll passes = some (x, n, prev) ∧
      x = lastOf .head ((L 0).filter fun e => passes e.2) ∧
      n = ((L 0).find? fun e => !passes e.2).map Prod.fst ∧ prev.length = kMaxHeight ∧
      ∀ i < s.maxHeight,
        prev[i]? = some (some (lastOf .head ((L i).filter fun e => passes e.2))) := by
  have hle := h.length_le (s.maxHeight - 1)
  have hone := h.one_le
  have hmax := h.le_kMaxHeight
  have hmul : s.maxHeight * (s.nodes.length + 1) =
      (s.maxHeight - 1) * (s.nodes.length + 1) + (s.nodes.length + 1) := by
    rw [← Nat.succ_mul, Nat.succ_eq_add_one, Nat.sub_add_cancel hone]
  obtain ⟨⟨x, n, prev⟩, hr, hx, hn, hlen, hfound, -⟩ := h.search hfirst
    (s.maxHeight * (s.nodes.length + 1)) (s.maxHeight - 1) [] _ (List.replicate kMaxHeight none)
    (by omega) List.length_replicate rfl nofun (by omega)
  refine ⟨x, n, prev, hr, hx, hn, ?_, fun i hi => hfound i (by omega)⟩
  rw [hlen, List.length_replicate]

end Levels

section Queries

variable {L : Nat → List (Nat × K)}

/-- An iterator is at the node of a key, or at none. -/
def Lands (s : SkipList K) (it : Option Nat) : Option K → Prop
  | none => it = none
  | some k => ∃ i, it = some i ∧ s.keyAt i = some k

theorem Levels.lands (h : Levels cmp s L) {o : Option (Nat × K)} (ho : ∀ e ∈ o, e ∈ L 0) :
    s.Lands (o.map Prod.fst) (o.map Prod.snd) := by
  cases o with
  | none => rfl
  | some e => exact ⟨e.1, rfl, (h.chain 0 (by decide)).keyAt e (ho e rfl)⟩

/-- Every node is on the lowest level. -/
theorem Levels.mem_zero (h : Levels cmp s L) {i : Nat} {k : K} (hk : s.keyAt i = some k) :
    (i, k) ∈ L 0 := by
  have hlt : i < s.nodes.length := by
    by_contra hge
    rw [SkipList.keyAt, List.getElem?_eq_none (Nat.le_of_not_lt hge)] at hk
    cases hk
  have hplace : i ∈ (L 0).map Prod.fst := h.places.mem_iff.mpr (List.mem_range.mpr hlt)
  obtain ⟨⟨i', k'⟩, he, rfl⟩ := List.mem_map.mp hplace
  have hkey := (h.chain 0 (by decide)).keyAt _ he
  rw [hk, Option.some.injEq] at hkey
  exact hkey ▸ he

theorem toIterator_lastOf (l : List (Nat × K)) :
    (lastOf .head l).toIterator = l.getLast?.map Prod.fst := by
  rcases List.eq_nil_or_concat l with rfl | ⟨front, e, rfl⟩
  · rfl
  · simp [NodePtr.toIterator]

theorem find?_snd (l : List (Nat × K)) (p : K → Bool) :
    (l.find? fun e => p e.2).map Prod.snd = (l.map Prod.snd).find? p := by
  rw [List.find?_map]
  rfl

theorem getLast?_filter_snd (l : List (Nat × K)) (p : K → Bool) :
    (l.filter fun e => p e.2).getLast?.map Prod.snd = (l.map Prod.snd).reverse.find? p := by
  rw [← List.map_reverse, ← find?_snd, ← List.head?_filter, List.filter_reverse,
    List.head?_reverse]

/-- A search backwards ends at the last key that passes. -/
theorem Levels.searchLast (h : Levels cmp s L) (passes : K → Bool)
    (hfirst : PassesFirst (fun e => passes e.2) (L 0)) : ∃ x,
    (s.searchAll passes).map Prod.fst = some x ∧
      s.Lands x.toIterator (((L 0).map Prod.snd).reverse.find? passes) := by
  obtain ⟨x, n, prev, hsearch, hx, -⟩ := h.searchAll passes hfirst
  refine ⟨x, by rw [hsearch]; rfl, ?_⟩
  rw [hx, toIterator_lastOf, ← getLast?_filter_snd]
  exact h.lands fun e he => (List.mem_filter.mp (List.mem_of_getLast? he)).1

variable [Std.TransCmp cmp]

/-- The keys below a key are in front of the others. -/
theorem Levels.passesFirst_lt (h : Levels cmp s L) (key : K) :
    PassesFirst (fun e => decide (cmp e.2 key = .lt)) (L 0) := by
  have hpair := List.pairwise_map.mp h.increasing
  refine hpair.imp fun {a b} hlt hb => ?_
  rw [decide_eq_true_eq] at hb ⊢
  exact Std.TransCmp.lt_trans hlt hb

/-- `FindGreaterOrEqual` finds the first key that is not below its argument. -/
theorem Levels.findGreaterOrEqual (h : Levels cmp s L) (key : K) : ∃ x prev,
    s.findGreaterOrEqual cmp key = some (x, prev) ∧
      s.Lands x (((L 0).map Prod.snd).find? fun k => cmp k key ≠ .lt) ∧
      prev.length = kMaxHeight ∧ ∀ i < s.maxHeight, prev[i]? =
        some (some (lastOf .head ((L i).filter fun e => decide (cmp e.2 key = .lt)))) := by
  obtain ⟨x, n, prev, hsearch, -, hn, hlen, hprev⟩ :=
    h.searchAll (fun k => cmp k key = .lt) (h.passesFirst_lt key)
  refine ⟨n, prev, ?_, ?_, hlen, hprev⟩
  · rw [SkipList.findGreaterOrEqual, hsearch]
    rfl
  · have hlands := h.lands (o := (L 0).find? fun e => !decide (cmp e.2 key = .lt)) fun e he =>
      List.mem_of_find?_eq_some he
    rw [find?_snd (L 0) fun k => !decide (cmp k key = .lt)] at hlands
    rw [hn]
    simpa using hlands

/-- What a skip list tells of a set of keys in order. -/
structure Represents (cmp : K → K → Ordering) (s : SkipList K) (keys : List K) : Prop where
  contains : ∀ key, s.contains cmp key = some (keys.any fun k => cmp key k = .eq)
  seek : ∀ target, ∃ it, s.seek cmp target = some it ∧
    s.Lands it (keys.find? fun k => cmp k target ≠ .lt)
  seekToFirst : ∃ it, s.seekToFirst = some it ∧ s.Lands it keys.head?
  seekToLast : ∃ it, s.seekToLast = some it ∧ s.Lands it keys.getLast?
  next : ∀ i k, s.keyAt i = some k → ∃ it, s.iteratorNext i = some it ∧
    s.Lands it (keys.find? fun b => cmp k b = .lt)
  prev : ∀ i k, s.keyAt i = some k → ∃ it, s.iteratorPrev cmp i = some it ∧
    s.Lands it (keys.reverse.find? fun b => cmp b k = .lt)

/-- A key that compares equal to another is found where the keys below it end. -/
theorem Levels.contains (h : Levels cmp s L) (key : K) :
    s.contains cmp key = some (((L 0).map Prod.snd).any fun k => cmp key k = .eq) := by
  obtain ⟨x, prev, hfind, hlands, -⟩ := h.findGreaterOrEqual key
  rw [SkipList.contains, hfind]
  simp only [Option.bind_eq_bind, Option.bind_some]
  have hnotBelow : ∀ k, cmp key k = .eq → cmp k key ≠ .lt := by
    intro k heq hlt
    rw [Std.OrientedCmp.eq_symm heq] at hlt
    cases hlt
  cases hfirst : ((L 0).map Prod.snd).find? fun k => cmp k key ≠ .lt with
  | none =>
    rw [hfirst] at hlands
    obtain rfl : x = none := hlands
    rw [List.find?_eq_none] at hfirst
    refine congrArg some (Eq.symm (List.any_eq_false.mpr fun k hk => ?_))
    rw [decide_eq_true_eq]
    intro heq
    exact hfirst k hk (by simpa using hnotBelow k heq)
  | some k =>
    rw [hfirst] at hlands
    obtain ⟨i, rfl, hkey⟩ := hlands
    simp only [hkey, Option.map_some]
    refine congrArg some ?_
    rw [Bool.eq_iff_iff, List.any_eq_true, decide_eq_true_eq]
    constructor
    · intro heq
      exact ⟨k, List.mem_of_find?_eq_some hfirst, by simpa using heq⟩
    · rintro ⟨k', hk', heq⟩
      rw [decide_eq_true_eq] at heq
      have hequal := h.increasing.find?_eq_some (p := fun k => decide (cmp k key ≠ .lt)) hk'
        (by simpa using hnotBelow k' heq) fun b _ hb hlt => by
          rw [← Std.TransCmp.congr_right heq] at hlt
          exact (of_decide_eq_true hb) hlt
      rw [hfirst, Option.some.injEq] at hequal
      rw [hequal]
      exact heq

theorem Levels.represents (h : Levels cmp s L) : Represents cmp s ((L 0).map Prod.snd) where
  contains := h.contains
  seek target := by
    obtain ⟨x, prev, hfind, hlands, -⟩ := h.findGreaterOrEqual target
    exact ⟨x, by rw [SkipList.seek, hfind]; rfl, hlands⟩
  seekToFirst := by
    have hchain := h.chain 0 (by decide)
    refine ⟨(L 0).head?.map Prod.fst, ?_, ?_⟩
    · cases hL : L 0 with
      | nil =>
        rw [hL] at hchain
        exact hchain
      | cons e l =>
        rw [hL] at hchain
        exact hchain.1
    · rw [List.head?_map]
      exact h.lands fun e he => List.mem_of_head? he
  seekToLast := by
    obtain ⟨x, hsearch, hlands⟩ := h.searchLast (fun _ => true)
      (List.pairwise_of_forall fun _ _ _ => rfl)
    refine ⟨x.toIterator, by rw [SkipList.seekToLast, findLast, hsearch]; rfl, ?_⟩
    have hlast : ((L 0).map Prod.snd).reverse.find? (fun _ => true) =
        ((L 0).map Prod.snd).getLast? := by
      rw [← List.head?_filter, List.filter_true, List.head?_reverse]
    exact hlast ▸ hlands
  next i k hk := by
    obtain ⟨u, v, hsplit⟩ := List.append_of_mem (h.mem_zero hk)
    have hchain := h.chain 0 (by decide)
    rw [hsplit, ← List.singleton_append, ← List.append_assoc] at hchain
    have hbehind := hchain.behind
    rw [lastOf_concat] at hbehind
    have hkeys : (Cursor.on (u.map Prod.snd).reverse k (v.map Prod.snd)).Over
        ((L 0).map Prod.snd) := by
      simp [Cursor.Over, hsplit]
    rw [← Cursor.current?_next h.increasing hkeys]
    have hlands := h.lands (o := v.head?) fun e he => by
      rw [hsplit]
      exact List.mem_append_right _ (List.mem_cons_of_mem _ (List.mem_of_head? he))
    cases v with
    | nil => exact ⟨none, hbehind, rfl⟩
    | cons e v => exact ⟨some e.1, hbehind.1, hlands⟩
  prev i k hk := by
    obtain ⟨x, hsearch, hlands⟩ := h.searchLast (fun b => cmp b k = .lt) (h.passesFirst_lt k)
    refine ⟨x.toIterator, ?_, hlands⟩
    rw [iteratorPrev, hk]
    simp only [Option.bind_eq_bind, Option.bind_some, findLessThan, hsearch]

end Queries

end SkipList

end WiscKey
