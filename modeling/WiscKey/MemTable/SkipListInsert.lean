import WiscKey.MemTable.SkipListSearch
import Mathlib.Data.List.Nodup

/-!
# Inserts into a skip list

An insert links the new node behind the last smaller one on every level of its height. The
levels stay lists in the order of the keys, whatever the heights, so a skip list answers as the
set of the keys that were inserted.
-/

namespace WiscKey

section Front

variable {α : Type} {p : α → Bool} {l : List α}

theorem PassesFirst.eq_append (h : PassesFirst p l) :
    l = l.filter p ++ l.filter fun a => !p a := by
  induction l with
  | nil => rfl
  | cons a l ih =>
    obtain ⟨hhead, htail⟩ := List.pairwise_cons.mp h
    cases hp : p a with
    | true =>
      rw [List.filter_cons_of_pos hp, List.filter_cons_of_neg (by simp [hp]), List.cons_append,
        ← ih htail]
    | false =>
      have hnone : ∀ b ∈ l, p b = false := by
        intro b hb
        rw [Bool.eq_false_iff]
        intro hpb
        rw [hhead b hb hpb] at hp
        cases hp
      rw [List.filter_cons_of_neg (by simp [hp]), List.filter_cons_of_pos (by simp [hp]),
        List.filter_eq_nil_iff.mpr fun b hb => by simp [hnone b hb], List.nil_append,
        List.filter_eq_self.mpr fun b hb => by simp [hnone b hb]]

end Front

namespace SkipList

variable {K : Type} {s t : SkipList K}

section Links

variable {x y : NodePtr} {i j : Nat} {v : Option Nat}

theorem next_setNext_self (h : (s.next x i).isSome = true) :
    (s.setNext x i v).next x i = some v := by
  cases x with
  | head =>
    have hlt : i < s.head.length := by simpa [next] using h
    exact List.getElem?_set_self hlt
  | node a =>
    rw [next, Option.isSome_bind] at h
    cases hnode : s.nodes[a]? with
    | none => simp [hnode] at h
    | some n =>
      have hlt : i < n.next.length := by simpa [hnode] using h
      simp [next, setNext, hnode, hlt]

theorem next_setNext_of_ne (h : y ≠ x ∨ j ≠ i) : (s.setNext x i v).next y j = s.next y j := by
  cases x with
  | head =>
    cases y with
    | head => exact List.getElem?_set_ne (h.resolve_left (fun hne => hne rfl)).symm
    | node b => rfl
  | node a =>
    cases y with
    | head => rfl
    | node b =>
      rw [next, setNext, next, List.getElem?_modify]
      split_ifs with hab
      · subst hab
        have hji := h.resolve_left fun hne => hne rfl
        cases s.nodes[a]? with
        | none => rfl
        | some n => exact List.getElem?_set_ne hji.symm
      · simp

@[simp] theorem keyAt_setNext (a : Nat) : (s.setNext x i v).keyAt a = s.keyAt a := by
  cases x with
  | head => rfl
  | node b =>
    rw [keyAt, keyAt, setNext, List.getElem?_modify]
    split_ifs <;> cases s.nodes[a]? <;> rfl

@[simp] theorem length_nodes_setNext : (s.setNext x i v).nodes.length = s.nodes.length := by
  cases x with
  | head => rfl
  | node b => exact List.length_modify ..

@[simp] theorem maxHeight_setNext : (s.setNext x i v).maxHeight = s.maxHeight := by
  cases x <;> rfl

end Links

section Chains

variable {level : Nat} {x : NodePtr} {l front rest : List (Nat × K)}

/-- The nodes whose links make a chain, the last one's included. -/
def sources (x : NodePtr) (l : List (Nat × K)) : List NodePtr := x :: l.map fun e => .node e.1

theorem lastOf_mem_sources (x : NodePtr) (l : List (Nat × K)) : lastOf x l ∈ sources x l := by
  induction l generalizing x with
  | nil => exact List.mem_singleton_self x
  | cons e l ih => exact List.mem_cons_of_mem x (ih (.node e.1))

theorem Chain.congr (h : s.Chain level x l)
    (hnext : ∀ y ∈ sources x l, t.next y level = s.next y level)
    (hkey : ∀ e ∈ l, t.keyAt e.1 = s.keyAt e.1) : t.Chain level x l := by
  induction l generalizing x with
  | nil => exact (hnext x List.mem_cons_self).trans h
  | cons e l ih =>
    obtain ⟨hhead, hk, htail⟩ := h
    refine ⟨(hnext x List.mem_cons_self).trans hhead, (hkey e List.mem_cons_self).trans hk, ?_⟩
    exact ih htail (fun y hy => hnext y (List.mem_cons_of_mem x hy)) fun d hd =>
      hkey d (List.mem_cons_of_mem e hd)

theorem Chain.exists_next (h : s.Chain level x l) : ∃ n, s.next x level = some n := by
  cases l with
  | nil => exact ⟨none, h⟩
  | cons e l => exact ⟨some e.1, h.1⟩

/-- A node linked in behind another one. -/
theorem Chain.link (h : s.Chain level x (front ++ rest))
    (hnodup : (sources x (front ++ rest)).Nodup)
    {n : Nat} {key : K} (hp : t.next (lastOf x front) level = some (some n))
    (hn : t.next (.node n) level = s.next (lastOf x front) level) (hnkey : t.keyAt n = some key)
    (hother : ∀ y ∈ sources x (front ++ rest), y ≠ lastOf x front →
      t.next y level = s.next y level)
    (hkey : ∀ e ∈ front ++ rest, t.keyAt e.1 = s.keyAt e.1) :
    t.Chain level x (front ++ (n, key) :: rest) := by
  induction front generalizing x with
  | nil =>
    refine ⟨hp, hnkey, ?_⟩
    cases rest with
    | nil => exact hn.trans h
    | cons e rest =>
      obtain ⟨hhead, hk, htail⟩ := h
      refine ⟨hn.trans hhead, (hkey e List.mem_cons_self).trans hk, htail.congr ?_ ?_⟩
      · intro y hy
        have hne : y ≠ x := fun heq => (List.nodup_cons.mp hnodup).1 (heq ▸ hy)
        exact hother y (List.mem_cons_of_mem x hy) hne
      · exact fun d hd => hkey d (List.mem_cons_of_mem e hd)
  | cons e front ih =>
    obtain ⟨hhead, hk, htail⟩ := h
    have hne : x ≠ lastOf (.node e.1) front := by
      rintro rfl
      refine (List.nodup_cons.mp hnodup).1 ?_
      have hmem := lastOf_mem_sources (.node e.1) front
      rcases List.mem_cons.mp hmem with heq | hmem
      · rw [heq]
        exact List.mem_cons_self
      · rw [List.cons_append, List.map_cons, List.map_append]
        exact List.mem_cons_of_mem _ (List.mem_append_left _ hmem)
    refine ⟨(hother x List.mem_cons_self hne).trans hhead,
      (hkey e List.mem_cons_self).trans hk, ?_⟩
    refine ih htail (List.nodup_cons.mp hnodup).2 hp hn ?_ ?_
    · exact fun y hy hlast => hother y (List.mem_cons_of_mem x hy) hlast
    · exact fun d hd => hkey d (List.mem_cons_of_mem e hd)

end Chains

section Insert

variable {cmp : K → K → Ordering} {L : Nat → List (Nat × K)}

/-- The last node below a key, level by level. -/
def below (cmp : K → K → Ordering) (L : Nat → List (Nat × K)) (key : K) (i : Nat) : NodePtr :=
  lastOf .head ((L i).filter fun e => decide (cmp e.2 key = .lt))

/-- The levels with a new node of some height. -/
def inserted (cmp : K → K → Ordering) (L : Nat → List (Nat × K)) (n : Nat) (key : K)
    (height i : Nat) : List (Nat × K) :=
  if i < height then
    (L i).filter (fun e => decide (cmp e.2 key = .lt)) ++
      (n, key) :: (L i).filter fun e => !decide (cmp e.2 key = .lt)
  else L i

/-- `prev` has the head for the levels that a higher node adds. -/
theorem getElem?_raisePrev {prev : List (Option NodePtr)} (hprev : prev.length = kMaxHeight)
    {maxHeight height : Nat} (hheight : height ≤ kMaxHeight) (i : Nat) :
    (raisePrev prev maxHeight height)[i]? =
      if maxHeight ≤ i ∧ i < height then some (some .head) else prev[i]? := by
  have hfold : ∀ (k : Nat) (prev : List (Option NodePtr)), prev.length = kMaxHeight →
      maxHeight + k ≤ kMaxHeight →
      ((List.range' maxHeight k).foldl (fun prev i => prev.set i (some .head)) prev)[i]? =
        if maxHeight ≤ i ∧ i < maxHeight + k then some (some .head) else prev[i]? := by
    intro k
    induction k with
    | zero =>
      intro prev _ _
      rw [if_neg (by omega)]
      rfl
    | succ k ih =>
      intro prev hlen hle
      have hlen' : ∀ l : List Nat,
          (l.foldl (fun prev i => prev.set i (some .head)) prev).length = prev.length := by
        intro l
        induction l generalizing prev with
        | nil => rfl
        | cons a l ihl =>
          rw [List.foldl_cons, ihl _ (by rw [List.length_set, hlen]), List.length_set]
      rw [List.range'_concat, List.foldl_append, List.foldl_cons, List.foldl_nil, Nat.one_mul]
      rcases eq_or_ne i (maxHeight + k) with rfl | hne
      · rw [List.getElem?_set_self (by rw [hlen', hlen]; omega), if_pos (by omega)]
      · rw [List.getElem?_set_ne hne.symm, ih prev hlen (by omega)]
        congr 1
        rw [eq_iff_iff]
        omega
  rcases Nat.lt_or_ge height maxHeight with hlt | hge
  · rw [raisePrev, Nat.sub_eq_zero_of_le hlt.le, if_neg (by omega)]
    rfl
  · rw [raisePrev, hfold _ prev hprev (by omega), Nat.add_sub_cancel' hge]

/-- A list where the new node is linked on the levels below `j`. -/
structure LinkedBelow (s : SkipList K) (p : Nat → NodePtr) (key : K) (height j : Nat)
    (t : SkipList K) : Prop where
  other : ∀ y i, y ≠ .node s.nodes.length → (i < j → y ≠ p i) → t.next y i = s.next y i
  pred : ∀ i < j, t.next (p i) i = some (some s.nodes.length)
  own : ∀ i < j, t.next (.node s.nodes.length) i = s.next (p i) i
  room : ∀ i, j ≤ i → i < height → (t.next (.node s.nodes.length) i).isSome = true
  keyAt_of_lt : ∀ a < s.nodes.length, t.keyAt a = s.keyAt a
  keyAt_new : t.keyAt s.nodes.length = some key
  length_nodes : t.nodes.length = s.nodes.length + 1
  maxHeight_eq : t.maxHeight = max s.maxHeight height

/-- The new node before it is linked. -/
theorem linkedBelow_zero (s : SkipList K) (p : Nat → NodePtr) (key : K) (height : Nat) :
    LinkedBelow s p key height 0 { s with
      maxHeight := max s.maxHeight height
      nodes := s.nodes ++ [⟨key, List.replicate height none⟩] } where
  other y i hy _ := by
    cases y with
    | head => rfl
    | node a =>
      have hne : a ≠ s.nodes.length := fun heq => hy (heq ▸ rfl)
      simp only [next]
      rcases Nat.lt_or_ge a s.nodes.length with hlt | hge
      · rw [List.getElem?_append_left hlt]
      · rw [List.getElem?_eq_none (by simp; omega), List.getElem?_eq_none hge]
  pred i hi := absurd hi (Nat.not_lt_zero i)
  own i hi := absurd hi (Nat.not_lt_zero i)
  room i _ hi := by simp [next, hi]
  keyAt_of_lt a ha := by simp only [keyAt, List.getElem?_append_left ha]
  keyAt_new := by simp [keyAt]
  length_nodes := by simp
  maxHeight_eq := rfl

/-- One more level. -/
theorem LinkedBelow.linkLevel {p : Nat → NodePtr} {key : K} {height j : Nat}
    (h : LinkedBelow s p key height j t) (hj : j < height) {prev : List (Option NodePtr)}
    (hprev : prev[j]? = some (some (p j))) (hp : ∀ i, p i ≠ .node s.nodes.length)
    (hnext : ∃ n, s.next (p j) j = some n) :
    ∃ t', linkLevel s.nodes.length prev t j = some t' ∧ LinkedBelow s p key height (j + 1) t' := by
  obtain ⟨n, hn⟩ := hnext
  have hpj : t.next (p j) j = some n := (h.other _ j (hp j) fun hlt => by omega).trans hn
  have hown := next_setNext_self (v := n) (h.room j le_rfl hj)
  have hpred : ((t.setNext (.node s.nodes.length) j n).next (p j) j).isSome = true := by
    rw [next_setNext_of_ne (.inl (hp j)), hpj]
    rfl
  have hrest : ∀ y i, i ≠ j ∨ (y ≠ .node s.nodes.length ∧ y ≠ p j) →
      ((t.setNext (.node s.nodes.length) j n).setNext (p j) j (some s.nodes.length)).next y i =
        t.next y i := by
    rintro y i (hne | ⟨hy, hyp⟩)
    · rw [next_setNext_of_ne (.inr hne), next_setNext_of_ne (.inr hne)]
    · rw [next_setNext_of_ne (.inl hyp), next_setNext_of_ne (.inl hy)]
  refine ⟨(t.setNext (.node s.nodes.length) j n).setNext (p j) j (some s.nodes.length), ?_, ?_⟩
  · rw [SkipList.linkLevel, hprev]
    simp only [Option.join_some, Option.bind_eq_bind, Option.bind_some, hpj]
  · constructor
    · intro y i hy hyp
      rcases eq_or_ne i j with rfl | hne
      · rw [hrest y i (.inr ⟨hy, hyp (Nat.lt_succ_self i)⟩)]
        exact h.other y i hy fun hlt => absurd hlt (Nat.lt_irrefl i)
      · rw [hrest y i (.inl hne)]
        exact h.other y i hy fun hlt => hyp (by omega)
    · intro i hi
      rcases eq_or_ne i j with rfl | hne
      · exact next_setNext_self hpred
      · rw [hrest (p i) i (.inl hne)]
        exact h.pred i (by omega)
    · intro i hi
      rcases eq_or_ne i j with rfl | hne
      · rw [next_setNext_of_ne (.inl (hp i).symm), hown, hn]
      · rw [hrest _ i (.inl hne)]
        exact h.own i (by omega)
    · intro i hi hheight
      rw [hrest _ i (.inl (by omega))]
      exact h.room i (by omega) hheight
    · intro a ha
      rw [keyAt_setNext, keyAt_setNext]
      exact h.keyAt_of_lt a ha
    · rw [keyAt_setNext, keyAt_setNext]
      exact h.keyAt_new
    · rw [length_nodes_setNext, length_nodes_setNext]
      exact h.length_nodes
    · rw [maxHeight_setNext, maxHeight_setNext]
      exact h.maxHeight_eq

/-- The loop of `Insert`. -/
theorem exists_linked {p : Nat → NodePtr} (key : K) {height : Nat}
    {prev : List (Option NodePtr)} (hprev : ∀ i < height, prev[i]? = some (some (p i)))
    (hp : ∀ i, p i ≠ .node s.nodes.length) (hnext : ∀ i < height, ∃ n, s.next (p i) i = some n) :
    ∃ t, (List.range height).foldlM (linkLevel s.nodes.length prev) { s with
        maxHeight := max s.maxHeight height
        nodes := s.nodes ++ [⟨key, List.replicate height none⟩] } = some t ∧
      LinkedBelow s p key height height t := by
  have hrange : ∀ j ≤ height, ∃ t, (List.range j).foldlM (linkLevel s.nodes.length prev) { s with
        maxHeight := max s.maxHeight height
        nodes := s.nodes ++ [⟨key, List.replicate height none⟩] } = some t ∧
      LinkedBelow s p key height j t := by
    intro j
    induction j with
    | zero => exact fun _ => ⟨_, rfl, linkedBelow_zero s p key height⟩
    | succ j ih =>
      intro hj
      obtain ⟨t, ht, hlinked⟩ := ih (Nat.le_of_succ_le hj)
      obtain ⟨t', ht', hlinked'⟩ := hlinked.linkLevel hj (hprev j hj) hp (hnext j hj)
      refine ⟨t', ?_, hlinked'⟩
      rw [List.range_succ, List.foldlM_append, ht]
      simpa using ht'
  exact hrange height le_rfl

theorem below_mem (cmp : K → K → Ordering) (L : Nat → List (Nat × K)) (key : K) (i : Nat) :
    below cmp L key i ∈ sources .head (L i) := by
  have hmem := lastOf_mem_sources .head ((L i).filter fun e => decide (cmp e.2 key = .lt))
  rcases List.mem_cons.mp hmem with heq | hmem
  · rw [below, heq]
    exact List.mem_cons_self
  · obtain ⟨e, he, heq⟩ := List.mem_map.mp hmem
    refine List.mem_cons_of_mem _ (List.mem_map.mpr ⟨e, (List.mem_filter.mp he).1, heq⟩)

namespace Levels

theorem nodup_sources (h : Levels cmp s L) (i : Nat) : (sources .head (L i)).Nodup := by
  have hplaces : ((L i).map Prod.fst).Nodup :=
    (h.places.nodup_iff.mpr List.nodup_range).sublist ((h.sublist_zero i).map _)
  refine List.nodup_cons.mpr ⟨by simp, ?_⟩
  have hmap : (L i).map (fun e => NodePtr.node e.1) = ((L i).map Prod.fst).map .node := by
    rw [List.map_map]
    rfl
  rw [hmap]
  exact hplaces.map fun a b hab => NodePtr.node.inj hab

theorem lt_length (h : Levels cmp s L) {i : Nat} {e : Nat × K} (he : e ∈ L i) :
    e.1 < s.nodes.length :=
  List.mem_range.mp (h.places.mem_iff.mp
    (List.mem_map_of_mem ((h.sublist_zero i).subset he)))

theorem ne_new (h : Levels cmp s L) {i : Nat} {y : NodePtr} (hy : y ∈ sources .head (L i)) :
    y ≠ .node s.nodes.length := by
  rcases List.mem_cons.mp hy with rfl | hy
  · nofun
  · obtain ⟨e, he, rfl⟩ := List.mem_map.mp hy
    intro heq
    have hlt := h.lt_length he
    rw [NodePtr.node.inj heq] at hlt
    exact Nat.lt_irrefl _ hlt

variable [Std.TransCmp cmp]

theorem eq_append (h : Levels cmp s L) (key : K) (i : Nat) :
    L i = (L i).filter (fun e => decide (cmp e.2 key = .lt)) ++
      (L i).filter fun e => !decide (cmp e.2 key = .lt) :=
  PassesFirst.eq_append ((h.passesFirst_lt key).sublist (h.sublist_zero i))

theorem chain_inserted (h : Levels cmp s L) {key : K} {height : Nat}
    (ht : LinkedBelow s (below cmp L key) key height height t) {i : Nat} (hi : i < kMaxHeight) :
    t.Chain i .head (inserted cmp L s.nodes.length key height i) := by
  have hkey : ∀ e ∈ L i, t.keyAt e.1 = s.keyAt e.1 := fun e he =>
    ht.keyAt_of_lt e.1 (h.lt_length he)
  have hchain := h.chain i hi
  rw [inserted]
  split_ifs with hheight
  · have hsplit := h.eq_append key i
    have hnodup := h.nodup_sources i
    have hother : ∀ y ∈ sources .head (L i), y ≠ below cmp L key i →
        t.next y i = s.next y i := fun y hy hne => ht.other y i (h.ne_new hy) fun _ => hne
    rw [hsplit] at hchain hnodup hother hkey
    exact hchain.link hnodup (ht.pred i hheight) (ht.own i hheight) ht.keyAt_new hother hkey
  · refine hchain.congr (fun y hy => ?_) hkey
    exact ht.other y i (h.ne_new hy) fun hlt => absurd hlt hheight

theorem sublist_inserted (h : Levels cmp s L) (n : Nat) (key : K) (height i : Nat) :
    (inserted cmp L n key height (i + 1)).Sublist (inserted cmp L n key height i) := by
  have hsub := h.sublist i
  rw [inserted, inserted]
  split_ifs with hupper hlower
  · exact (hsub.filter _).append ((hsub.filter _).cons_cons _)
  · omega
  · refine hsub.trans ?_
    conv_lhs => rw [h.eq_append key i]
    exact (List.Sublist.refl _).append (List.sublist_cons_self ..)
  · exact hsub

theorem increasing_inserted (h : Levels cmp s L) {key : K} {height : Nat} (hpos : 0 < height)
    (hnew : ∀ e ∈ L 0, cmp key e.2 ≠ .eq) (n : Nat) :
    Increasing cmp ((inserted cmp L n key height 0).map Prod.snd) := by
  have hold := h.increasing
  rw [h.eq_append key 0, List.map_append, Increasing, List.pairwise_append] at hold
  obtain ⟨hfront, hback, hcross⟩ := hold
  have hlow : ∀ a ∈ ((L 0).filter fun e => decide (cmp e.2 key = .lt)).map Prod.snd,
      cmp a key = .lt := by
    intro a ha
    obtain ⟨e, he, rfl⟩ := List.mem_map.mp ha
    exact of_decide_eq_true (List.mem_filter.mp he).2
  have hhigh : ∀ a ∈ ((L 0).filter fun e => !decide (cmp e.2 key = .lt)).map Prod.snd,
      cmp key a = .lt := by
    intro a ha
    obtain ⟨e, he, rfl⟩ := List.mem_map.mp ha
    obtain ⟨hmem, hge⟩ := List.mem_filter.mp he
    have hnlt : cmp e.2 key ≠ .lt := by simpa using hge
    exact lt_of_not_gt_of_ne (not_gt_iff_not_lt.mpr hnlt) (hnew e hmem)
  rw [inserted, if_pos hpos, List.map_append, List.map_cons, Increasing, List.pairwise_append]
  refine ⟨hfront, List.pairwise_cons.mpr ⟨hhigh, hback⟩, fun a ha b hb => ?_⟩
  rcases List.mem_cons.mp hb with rfl | hb
  · exact hlow a ha
  · exact hcross a ha b hb

theorem perm_inserted (h : Levels cmp s L) (n : Nat) (key : K) {height : Nat}
    (hpos : 0 < height) : (inserted cmp L n key height 0).Perm ((n, key) :: L 0) := by
  rw [inserted, if_pos hpos]
  conv_rhs => rw [h.eq_append key 0]
  exact List.perm_middle

theorem inserted_of_linked (h : Levels cmp s L) {key : K} {height : Nat} (hpos : 1 ≤ height)
    (hheight : height ≤ kMaxHeight) (hnew : ∀ e ∈ L 0, cmp key e.2 ≠ .eq)
    (ht : LinkedBelow s (below cmp L key) key height height t) :
    Levels cmp t (inserted cmp L s.nodes.length key height) where
  chain i hi := h.chain_inserted ht hi
  increasing := h.increasing_inserted hpos hnew _
  sublist := h.sublist_inserted _ key height
  above i hi := by
    rw [ht.maxHeight_eq] at hi
    rw [inserted, if_neg (by omega)]
    exact h.above i (by omega)
  one_le := by
    rw [ht.maxHeight_eq]
    omega
  le_kMaxHeight := by
    have hle := h.le_kMaxHeight
    rw [ht.maxHeight_eq]
    omega
  places := by
    have hperm := (h.perm_inserted s.nodes.length key hpos).map Prod.fst
    rw [ht.length_nodes, List.range_succ]
    refine hperm.trans ((h.places.cons _).trans ?_)
    exact (List.perm_append_singleton _ _).symm

/-- An insert of a new key keeps the levels. -/
theorem insert (h : Levels cmp s L) {key : K} {height : Nat} (hpos : 1 ≤ height)
    (hheight : height ≤ kMaxHeight) (hnew : ∀ e ∈ L 0, cmp key e.2 ≠ .eq) :
    ∃ t, s.insert cmp key height = some t ∧
      Levels cmp t (inserted cmp L s.nodes.length key height) := by
  obtain ⟨x, prev, hfind, hlands, hlen, hprev⟩ := h.findGreaterOrEqual key
  have hfresh : ∀ i, x = some i → ∃ k, s.keyAt i = some k ∧ cmp key k ≠ .eq := by
    rintro i rfl
    cases hfirst : ((L 0).map Prod.snd).find? fun k => cmp k key ≠ .lt with
    | none =>
      rw [hfirst] at hlands
      cases hlands
    | some k =>
      rw [hfirst] at hlands
      obtain ⟨j, hj, hkey⟩ := hlands
      obtain ⟨e, he, rfl⟩ := List.mem_map.mp (List.mem_of_find?_eq_some hfirst)
      exact ⟨e.2, Option.some.inj hj ▸ hkey, hnew e he⟩
  have hraised : ∀ i < height,
      (raisePrev prev s.maxHeight height)[i]? = some (some (below cmp L key i)) := by
    intro i hi
    rw [getElem?_raisePrev hlen hheight]
    split_ifs with hraise
    · rw [below, h.above i hraise.1]
      rfl
    · exact hprev i (by omega)
  have hnext : ∀ i < height, ∃ n, s.next (below cmp L key i) i = some n := by
    intro i hi
    have hchain := h.chain i (by omega)
    rw [h.eq_append key i] at hchain
    exact hchain.behind.exists_next
  obtain ⟨t, ht, hlinked⟩ := exists_linked key hraised
    (fun i => h.ne_new (below_mem cmp L key i)) hnext
  refine ⟨t, ?_, h.inserted_of_linked hpos hheight hnew hlinked⟩
  rw [SkipList.insert, hfind]
  simp only [Option.bind_eq_bind, Option.bind_some]
  cases x with
  | none => exact ht
  | some i =>
    obtain ⟨k, hk, hne⟩ := hfresh i rfl
    simp only [hk, Option.map_some, Option.bind_some, decide_eq_false hne]
    exact ht

end Levels

/-- The levels after a run of inserts of different keys. -/
theorem exists_levels [Std.TransCmp cmp] {inserts : List (K × Nat)}
    (hdistinct : inserts.Pairwise fun a b => cmp a.1 b.1 ≠ .eq)
    (hheight : ∀ e ∈ inserts, 1 ≤ e.2 ∧ e.2 ≤ kMaxHeight) :
    ∃ (s : SkipList K) (L : Nat → List (Nat × K)),
      inserts.foldlM (fun s e => s.insert cmp e.1 e.2) empty = some s ∧
      Levels cmp s L ∧ ((L 0).map Prod.snd).Perm (inserts.map Prod.fst) := by
  induction inserts using List.reverseRecOn with
  | nil => exact ⟨empty, fun _ => [], rfl, .empty cmp, .nil⟩
  | append_singleton inserts e ih =>
    obtain ⟨hold, -, hcross⟩ := List.pairwise_append.mp hdistinct
    obtain ⟨s, L, hs, hlevels, hperm⟩ :=
      ih hold fun d hd => hheight d (List.mem_append_left _ hd)
    obtain ⟨hpos, hmax⟩ := hheight e (List.mem_append_right _ List.mem_cons_self)
    have hnew : ∀ d ∈ L 0, cmp e.1 d.2 ≠ .eq := by
      intro d hd heq
      obtain ⟨d', hd', heq'⟩ := List.mem_map.mp (hperm.mem_iff.mp (List.mem_map_of_mem hd))
      have hne := hcross d' hd' e List.mem_cons_self
      rw [heq'] at hne
      exact hne (Std.OrientedCmp.eq_symm heq)
    obtain ⟨t, ht, hinserted⟩ := hlevels.insert hpos hmax hnew
    refine ⟨t, _, ?_, hinserted, ?_⟩
    · rw [List.foldlM_append, hs]
      simpa using ht
    · have hkeys := (hlevels.perm_inserted s.nodes.length e.1 hpos).map Prod.snd
      rw [List.map_append]
      exact hkeys.trans ((hperm.cons e.1).trans (List.perm_append_singleton _ _).symm)

/-- A skip list holds exactly the keys that were inserted: on the lowest level all of them in
increasing order, on each level a part of the level below, and it answers as their set. -/
theorem insert_all [Std.TransCmp cmp] {inserts : List (K × Nat)}
    (hdistinct : inserts.Pairwise fun a b => cmp a.1 b.1 ≠ .eq)
    (hheight : ∀ e ∈ inserts, 1 ≤ e.2 ∧ e.2 ≤ kMaxHeight) :
    ∃ (s : SkipList K) (L : Nat → List (Nat × K)),
      inserts.foldlM (fun s e => s.insert cmp e.1 e.2) empty = some s ∧
      (∀ i < kMaxHeight, s.Chain i .head (L i)) ∧
      Increasing cmp ((L 0).map Prod.snd) ∧
      ((L 0).map Prod.snd).Perm (inserts.map Prod.fst) ∧
      (∀ i, (L (i + 1)).Sublist (L i)) ∧
      Represents cmp s ((L 0).map Prod.snd) := by
  obtain ⟨s, L, hs, hlevels, hperm⟩ := exists_levels hdistinct hheight
  exact ⟨s, L, hs, hlevels.chain, hlevels.increasing, hperm, hlevels.sublist, hlevels.represents⟩

/-- Three keys, of which the second makes the list higher. -/
theorem insert_all_three : ∃ (s : SkipList Nat) (L : Nat → List (Nat × Nat)),
    [(5, 1), (3, 12), (9, 3)].foldlM (fun s e => s.insert compare e.1 e.2) empty = some s ∧
      ((L 0).map Prod.snd).Perm [5, 3, 9] ∧ Represents compare s ((L 0).map Prod.snd) := by
  obtain ⟨s, L, hs, -, -, hperm, -, hrepresents⟩ :=
    @insert_all Nat compare _ [(5, 1), (3, 12), (9, 3)] (by decide) (by decide)
  exact ⟨s, L, hs, hperm, hrepresents⟩

end Insert

end SkipList

end WiscKey
