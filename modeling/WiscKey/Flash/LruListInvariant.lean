import WiscKey.Flash.LruList
import WiscKey.Library.Ring

/-!
# The positions of the LRU list

The elements in use are threaded both ways between head and tail, the unused ones backwards
from their tail. Moving an element to the head reorders the ones in use, and inserting a key
takes an unused element, as long as there is one.
-/

namespace WiscKey.Flash

namespace LRUListD

/-- The links to the next element. -/
def nexts (l : LRUListD) : Int → Int := LRUElementD.next ∘ l.element

/-- The links to the previous element. -/
def previouses (l : LRUListD) : Int → Int := LRUElementD.previous ∘ l.element

/-- The keys of the elements. -/
def keys (l : LRUListD) : Int → Int := LRUElementD.key ∘ l.element

section Fields

variable (l : LRUListD) (pos value : Int)

@[simp] theorem setNext_nexts :
    (l.setNext pos value).nexts = Function.update l.nexts pos value :=
  Function.comp_update ..

@[simp] theorem setNext_previouses : (l.setNext pos value).previouses = l.previouses :=
  (Function.comp_update ..).trans (Function.update_eq_self ..)

@[simp] theorem setNext_keys : (l.setNext pos value).keys = l.keys :=
  (Function.comp_update ..).trans (Function.update_eq_self ..)

@[simp] theorem setPrevious_nexts : (l.setPrevious pos value).nexts = l.nexts :=
  (Function.comp_update ..).trans (Function.update_eq_self ..)

@[simp] theorem setPrevious_previouses :
    (l.setPrevious pos value).previouses = Function.update l.previouses pos value :=
  Function.comp_update ..

@[simp] theorem setPrevious_keys : (l.setPrevious pos value).keys = l.keys :=
  (Function.comp_update ..).trans (Function.update_eq_self ..)

@[simp] theorem setKey_nexts : (l.setKey pos value).nexts = l.nexts :=
  (Function.comp_update ..).trans (Function.update_eq_self ..)

@[simp] theorem setKey_previouses : (l.setKey pos value).previouses = l.previouses :=
  (Function.comp_update ..).trans (Function.update_eq_self ..)

@[simp] theorem setKey_keys : (l.setKey pos value).keys = Function.update l.keys pos value :=
  Function.comp_update ..

end Fields

end LRUListD

/-- The elements `used` are threaded in this order between head and tail. -/
structure Threaded (used : List Int) (l : LRUListD) : Prop where
  next : Linked l.nexts lruElementPointToNull used
  previous : Linked l.previouses lruElementPointToNull used.reverse
  head : ∀ p, used.head? = some p → l.head = p
  tail : ∀ p, used.getLast? = some p → l.tail = p

/-- What the operations on the elements in use leave alone. -/
structure LruFrame (l l' : LRUListD) : Prop where
  keys : l'.keys = l.keys
  len : l'.len = l.len
  freeTail : l'.freeTail = l.freeTail
  freeLen : l'.freeLen = l.freeLen

variable {used unused l₁ l₂ : List Int} {l l' : LRUListD} {pos : Int}

/-- The head of the list is the first element. -/
theorem Threaded.head_eq_iff (h : Threaded (l₁ ++ pos :: l₂) l)
    (hnodup : (l₁ ++ pos :: l₂).Nodup) : l.head = pos ↔ l₁ = [] := by
  cases l₁ with
  | nil => exact iff_of_true (h.head pos rfl) rfl
  | cons a l₁ =>
    refine iff_of_false ?_ (List.cons_ne_nil _ _)
    rw [h.head a rfl]
    rintro rfl
    exact (List.nodup_cons.mp hnodup).1 (by simp)

/-- The tail of the list is the last element. -/
theorem Threaded.tail_eq_iff (h : Threaded (l₁ ++ pos :: l₂) l)
    (hnodup : (l₁ ++ pos :: l₂).Nodup) : l.tail = pos ↔ l₂ = [] := by
  rcases List.eq_nil_or_concat l₂ with rfl | ⟨rest, a, rfl⟩
  · exact iff_of_true (h.tail pos (by simp)) rfl
  · rw [List.concat_eq_append] at *
    have hlast : (l₁ ++ pos :: (rest ++ [a])).getLast? = some a := by
      rw [← List.cons_append, ← List.append_assoc, List.getLast?_append]
      rfl
    refine iff_of_false ?_ (by simp)
    rw [h.tail a hlast]
    rintro rfl
    have hpos := (List.nodup_cons.mp (List.nodup_append.mp hnodup).2.1).1
    exact hpos (by simp)

/-- An element that is not the only one is unlinked. -/
theorem Threaded.unlink (h : Threaded (l₁ ++ pos :: l₂) l) (hnodup : (l₁ ++ pos :: l₂).Nodup)
    (hne : l₁ ++ l₂ ≠ []) :
    Threaded (l₁ ++ l₂) (l.unlinkElement pos) ∧ LruFrame l (l.unlinkElement pos) ∧
      ∀ p, p ∉ l₁ ++ l₂ → (l.unlinkElement pos).previouses p = l.previouses p := by
  obtain ⟨hnext₁, hnext₂⟩ := Linked.append_cons_iff.mp h.next
  have hprevious := h.previous
  rw [List.reverse_append, List.reverse_cons, List.append_assoc] at hprevious
  obtain ⟨hprev₂, hprev₁⟩ := Linked.append_cons_iff.mp hprevious
  obtain ⟨hnodup₁, hnodup₂, hdisjoint⟩ := List.nodup_append.mp hnodup
  have hhead := h.head_eq_iff hnodup
  have htail := h.tail_eq_iff hnodup
  unfold LRUListD.unlinkElement
  rcases List.eq_nil_or_concat l₁ with rfl | ⟨init, p, rfl⟩
  · obtain ⟨q, rest, rfl⟩ := List.exists_cons_of_ne_nil hne
    have hq : (l.element pos).next = q := hnext₂.1
    have hqrest := (List.nodup_cons.mp (List.nodup_cons.mp hnodup₂).2).1
    rw [if_pos (hhead.mpr rfl).symm, hq]
    refine ⟨⟨?_, ?_, fun p hp => Option.some.inj hp, ?_⟩,
      ⟨LRUListD.setPrevious_keys .., rfl, rfl, rfl⟩, ?_⟩
    · rw [LRUListD.setPrevious_nexts]
      exact hnext₂.2
    · rw [LRUListD.setPrevious_previouses]
      rw [List.reverse_cons] at hprev₂
      rw [List.nil_append, List.reverse_cons]
      exact hprev₂.relink (by simpa using hqrest) _
    · intro p hp
      exact h.tail p (by simpa using hp)
    · intro p hp
      rw [LRUListD.setPrevious_previouses, Function.update_of_ne]
      · rfl
      · rintro rfl
        exact hp List.mem_cons_self
  · rw [List.concat_eq_append] at *
    have hpinit : p ∉ init := fun hm =>
      (List.nodup_append.mp hnodup₁).2.2 p hm p List.mem_cons_self rfl
    have hp : (l.element pos).previous = p := by
      rw [List.reverse_append] at hprev₁
      exact hprev₁.1
    rw [if_neg (fun he => absurd (hhead.mp he.symm) (by simp))]
    cases l₂ with
    | nil =>
      rw [if_pos (htail.mpr rfl).symm, hp, List.append_nil]
      refine ⟨⟨?_, ?_, ?_, ?_⟩, ⟨LRUListD.setNext_keys .., rfl, rfl, rfl⟩, ?_⟩
      · rw [LRUListD.setNext_nexts]
        exact hnext₁.relink hpinit _
      · rw [LRUListD.setNext_previouses]
        exact hprev₁.of_cons
      · intro q hq
        refine h.head q ?_
        rw [List.head?_append, hq]
        rfl
      · intro q hq
        change p = q
        simpa using hq
      · intro q _
        rw [LRUListD.setNext_previouses]
        rfl
    | cons q rest =>
      have hq : (l.element pos).next = q := hnext₂.1
      have hqp : q ≠ p := by
        rintro rfl
        exact hdisjoint q (by simp) q (by simp) rfl
      have hpos : pos ≠ p := by
        rintro rfl
        exact hdisjoint pos (by simp) pos (by simp) rfl
      have hqrest := (List.nodup_cons.mp (List.nodup_cons.mp hnodup₂).2).1
      have hprest : p ∉ q :: rest := fun hm => hdisjoint p (by simp) p (by simp [hm]) rfl
      have hqinit : q ∉ (init ++ [p]).reverse := fun hm =>
        hdisjoint q (List.mem_reverse.mp hm) q (by simp) rfl
      have hform : (let l := l.setNext (l.element pos).previous (l.element pos).next
          l.setPrevious (l.element pos).next (l.element pos).previous) =
          (l.setNext p q).setPrevious q p := by
        simp only [hp, hq, LRUListD.setNext, Function.update_of_ne hpos]
      rw [if_neg (fun he => absurd (htail.mp he.symm) (by simp)), hform]
      refine ⟨⟨?_, ?_, ?_, ?_⟩, ⟨?_, rfl, rfl, rfl⟩, ?_⟩
      · rw [LRUListD.setPrevious_nexts, LRUListD.setNext_nexts, Linked.append_cons_iff]
        exact ⟨hnext₁.relink hpinit q, hnext₂.2.update hprest q⟩
      · rw [LRUListD.setPrevious_previouses, LRUListD.setNext_previouses, List.reverse_append,
          List.reverse_append, List.reverse_singleton, List.singleton_append,
          Linked.append_cons_iff]
        rw [List.reverse_cons] at hprev₂ ⊢
        have hrest := hprev₁.of_cons
        rw [List.reverse_append] at hrest hqinit
        exact ⟨hprev₂.relink (by simpa using hqrest) p, hrest.update hqinit p⟩
      · intro x hx
        refine h.head x ?_
        rw [List.head?_append] at hx ⊢
        cases init with
        | nil => exact hx
        | cons y init => exact hx
      · intro x hx
        refine h.tail x ?_
        rw [List.getLast?_append] at hx ⊢
        exact hx
      · rw [LRUListD.setPrevious_keys, LRUListD.setNext_keys]
      · intro x hx
        rw [LRUListD.setPrevious_previouses, LRUListD.setNext_previouses, Function.update_of_ne]
        rintro rfl
        exact hx (by simp)

/-- An element goes in front of the others. -/
theorem Threaded.linkHead {rest : List Int} {first : Int} (h : Threaded (first :: rest) l)
    (hnodup : (first :: rest).Nodup) (hpos : pos ∉ first :: rest) :
    Threaded (pos :: first :: rest) (l.linkHead pos) ∧ LruFrame l (l.linkHead pos) ∧
      ∀ p, p ∉ pos :: first :: rest → (l.linkHead pos).previouses p = l.previouses p := by
  have hhead : l.head = first := h.head first rfl
  have hne : pos ≠ first := fun he => hpos (he ▸ List.mem_cons_self)
  have hfirst := (List.nodup_cons.mp hnodup).1
  have hform : l.linkHead pos =
      { ((l.setNext pos first).setPrevious pos lruElementPointToNull).setPrevious first pos with
        head := pos } := by
    unfold LRUListD.linkHead
    simp only [hhead, LRUListD.setNext, LRUListD.setPrevious]
  have hnexts : (l.linkHead pos).nexts = Function.update l.nexts pos first := by
    rw [hform]
    change (((l.setNext pos first).setPrevious pos _).setPrevious first pos).nexts = _
    rw [LRUListD.setPrevious_nexts, LRUListD.setPrevious_nexts, LRUListD.setNext_nexts]
  have hpreviouses : (l.linkHead pos).previouses =
      Function.update (Function.update l.previouses pos lruElementPointToNull) first pos := by
    rw [hform]
    change (((l.setNext pos first).setPrevious pos _).setPrevious first pos).previouses = _
    rw [LRUListD.setPrevious_previouses, LRUListD.setPrevious_previouses,
      LRUListD.setNext_previouses]
  have hkeys : (l.linkHead pos).keys = l.keys := by
    rw [hform]
    change (((l.setNext pos first).setPrevious pos _).setPrevious first pos).keys = _
    rw [LRUListD.setPrevious_keys, LRUListD.setPrevious_keys, LRUListD.setNext_keys]
  refine ⟨⟨?_, ?_, ?_, ?_⟩, ⟨hkeys, rfl, rfl, rfl⟩, ?_⟩
  · rw [hnexts]
    exact ⟨Function.update_self .., h.next.update hpos first⟩
  · have hprevious := h.previous.update (fun hm => hpos (List.mem_reverse.mp hm))
      lruElementPointToNull
    rw [List.reverse_cons] at hprevious
    rw [hpreviouses, List.reverse_cons, List.reverse_cons, Linked.append_cons_iff]
    refine ⟨hprevious.relink (by simpa using hfirst) pos, ?_⟩
    change Function.update (Function.update l.previouses pos _) first pos pos = _
    rw [Function.update_of_ne hne, Function.update_self]
  · intro p hp
    rw [hform]
    exact Option.some.inj hp
  · intro p hp
    rw [hform]
    refine h.tail p ?_
    rwa [List.getLast?_cons_cons] at hp
  · intro p hp
    rw [List.mem_cons, not_or, List.mem_cons, not_or] at hp
    rw [hpreviouses, Function.update_of_ne hp.2.1, Function.update_of_ne hp.1]

/-- The elements in use and the unused ones, each once. -/
structure LruRep (used unused : List Int) (l : LRUListD) : Prop where
  nodup : (used ++ unused).Nodup
  nonneg : ∀ p ∈ used ++ unused, 0 ≤ p
  threaded : Threaded used l
  len : l.len = used.length
  freePrevious : Linked l.previouses lruElementPointToNull unused.reverse
  freeTail : ∀ p, unused.getLast? = some p → l.freeTail = p
  freeLen : l.freeLen = unused.length

/-- Only the elements in use were rearranged. -/
theorem LruRep.rearrange {used' : List Int} (h : LruRep used unused l)
    (hperm : used'.Perm used) (hthreaded : Threaded used' l') (hframe : LruFrame l l')
    (hprevious : ∀ p, p ∉ used' → l'.previouses p = l.previouses p) : LruRep used' unused l' := by
  obtain ⟨hnodup₁, hnodup₂, hdisjoint⟩ := List.nodup_append.mp h.nodup
  have hunused : ∀ p ∈ unused, p ∉ used' := fun p hp hm =>
    hdisjoint p (hperm.mem_iff.mp hm) p hp rfl
  refine ⟨(hperm.append_right unused).nodup_iff.mpr h.nodup, ?_, hthreaded, ?_, ?_, ?_, ?_⟩
  · intro p hp
    exact h.nonneg p ((hperm.append_right unused).mem_iff.mp hp)
  · rw [hframe.len, hperm.length_eq, h.len]
  · exact h.freePrevious.congr fun p hp => hprevious p (hunused p (List.mem_reverse.mp hp))
  · rw [hframe.freeTail]
    exact h.freeTail
  · rw [hframe.freeLen, h.freeLen]

/-- An element in use moves to the head, in front of the others in their order. -/
theorem LruRep.moveFront (h : LruRep (l₁ ++ pos :: l₂) unused l) {key : Int}
    (hkey : (l.element pos).key = key) :
    LruRep (pos :: (l₁ ++ l₂)) unused (l.moveElemenetToTheHeadofLRUListD key pos) ∧
      (l.moveElemenetToTheHeadofLRUListD key pos).keys = l.keys := by
  have hnodup := (List.nodup_append.mp h.nodup).1
  have hlen := h.len
  unfold LRUListD.moveElemenetToTheHeadofLRUListD
  rw [if_neg (not_not.mpr hkey)]
  split
  · rename_i hmore
    have hne : l₁ ++ l₂ ≠ [] := by
      intro hnil
      have hlen' := congrArg List.length hnil
      simp only [List.length_append, List.length_cons, List.length_nil] at hlen hlen'
      omega
    obtain ⟨hunlinked, hframe, hprevious⟩ := h.threaded.unlink hnodup hne
    have hperm : (pos :: (l₁ ++ l₂)).Perm (l₁ ++ pos :: l₂) := List.perm_middle.symm
    obtain ⟨hposrest, hrest⟩ := List.nodup_cons.mp (hperm.nodup_iff.mpr hnodup)
    generalize l₁ ++ l₂ = others at *
    obtain ⟨first, rest, rfl⟩ := List.exists_cons_of_ne_nil hne
    obtain ⟨hlinked, hframe', hprevious'⟩ := hunlinked.linkHead hrest hposrest
    refine ⟨h.rearrange hperm hlinked ⟨hframe'.keys.trans hframe.keys,
      hframe'.len.trans hframe.len, hframe'.freeTail.trans hframe.freeTail,
      hframe'.freeLen.trans hframe.freeLen⟩ ?_, hframe'.keys.trans hframe.keys⟩
    intro p hp
    rw [hprevious' p hp]
    exact hprevious p fun hm => hp (List.mem_cons_of_mem _ hm)
  · rename_i hfew
    have hnil : l₁ = [] ∧ l₂ = [] := by
      simp only [List.length_append, List.length_cons] at hlen
      refine ⟨List.eq_nil_of_length_eq_zero (by omega), List.eq_nil_of_length_eq_zero (by omega)⟩
    obtain ⟨rfl, rfl⟩ := hnil
    exact ⟨h, rfl⟩

/-- Moving an element in use to the head. -/
theorem LruRep.move (h : LruRep used unused l) (hpos : pos ∈ used) {key : Int}
    (hkey : (l.element pos).key = key) :
    ∃ used', LruRep used' unused (l.moveElemenetToTheHeadofLRUListD key pos) ∧
      used'.Perm used ∧ (l.moveElemenetToTheHeadofLRUListD key pos).head = pos ∧
      (l.moveElemenetToTheHeadofLRUListD key pos).keys = l.keys := by
  obtain ⟨l₁, l₂, rfl⟩ := List.mem_iff_append.mp hpos
  obtain ⟨hrep, hkeys⟩ := h.moveFront hkey
  exact ⟨_, hrep, List.perm_middle.symm, hrep.threaded.head pos rfl, hkeys⟩

/-- Setting a dirty flag moves nothing. -/
theorem LruRep.setDirty (h : LruRep used unused l) (key pos : Int) :
    LruRep used unused (l.setElementDirtyD key pos) ∧
      (l.setElementDirtyD key pos).keys = l.keys ∧
      (l.setElementDirtyD key pos).head = l.head := by
  unfold LRUListD.setElementDirtyD
  split
  · exact ⟨h, rfl, rfl⟩
  · have hnexts : (l.setDirty pos true).nexts = l.nexts :=
      (Function.comp_update ..).trans (Function.update_eq_self ..)
    have hpreviouses : (l.setDirty pos true).previouses = l.previouses :=
      (Function.comp_update ..).trans (Function.update_eq_self ..)
    have hkeys : (l.setDirty pos true).keys = l.keys :=
      (Function.comp_update ..).trans (Function.update_eq_self ..)
    refine ⟨h.rearrange (List.Perm.refl _) ⟨?_, ?_, h.threaded.head, h.threaded.tail⟩
      ⟨hkeys, rfl, rfl, rfl⟩ fun p _ => ?_, hkeys, rfl⟩
    · rw [hnexts]
      exact h.threaded.next
    · rw [hpreviouses]
      exact h.threaded.previous
    · rw [hpreviouses]

/-- The tail of the unused elements is taken. -/
theorem LruRep.getFree (h : LruRep used (unused ++ [pos]) l) :
    ∃ l', l.getElementFromFreeElementListD = some (pos, l') ∧ LruRep used unused l' ∧
      l'.keys = l.keys ∧ pos ∉ used ∧ pos ∉ unused := by
  have hlen : l.freeLen = unused.length + 1 := by
    rw [h.freeLen, List.length_append]
    rfl
  have htail : l.freeTail = pos := h.freeTail pos (by simp)
  have hnodup := h.nodup
  rw [← List.append_assoc] at hnodup
  obtain ⟨hnodup', -, hdisjoint⟩ := List.nodup_append.mp hnodup
  have hnot : pos ∉ used ++ unused := fun hm => hdisjoint pos hm pos (by simp) rfl
  have hnonneg : ∀ p ∈ used ++ unused, 0 ≤ p := by
    intro p hp
    refine h.nonneg p ?_
    rw [← List.append_assoc]
    exact List.mem_append_left _ hp
  have hfree := h.freePrevious
  rw [List.reverse_append] at hfree
  rw [List.mem_append, not_or] at hnot
  unfold LRUListD.getElementFromFreeElementListD
  rw [if_neg (by omega)]
  simp only [htail]
  split
  · rename_i hone
    obtain rfl : unused = [] := List.eq_nil_of_length_eq_zero (by omega)
    refine ⟨_, rfl, ⟨hnodup', hnonneg, ⟨h.threaded.next, h.threaded.previous, h.threaded.head,
      h.threaded.tail⟩, h.len, trivial, ?_, ?_⟩, rfl, hnot⟩
    · simp
    · exact hone
  · rename_i hmore
    have hne : unused ≠ [] := by
      rintro rfl
      simp only [List.length_nil] at hlen
      omega
    obtain ⟨rest, last, rfl⟩ := (List.eq_nil_or_concat unused).resolve_left hne
    rw [List.concat_eq_append] at *
    have hlast : (l.element pos).previous = last := by
      rw [List.reverse_append] at hfree
      exact hfree.1
    have hlastUsed : last ∉ used := fun hm =>
      (List.nodup_append.mp hnodup').2.2 last hm last (by simp) rfl
    rw [hlast]
    refine ⟨_, rfl, ⟨hnodup', hnonneg, ⟨?_, ?_, h.threaded.head, h.threaded.tail⟩, h.len, ?_, ?_,
      ?_⟩, LRUListD.setNext_keys .., hnot⟩
    · rw [LRUListD.setNext_nexts]
      exact h.threaded.next.update hlastUsed _
    · rw [LRUListD.setNext_previouses]
      exact h.threaded.previous
    · rw [LRUListD.setNext_previouses]
      exact hfree.of_cons
    · intro p hp
      change last = p
      simpa using hp
    · change l.freeLen - 1 = _
      omega

/-- A key goes to an unused element in front of the others. -/
theorem LruRep.insert (h : LruRep used (unused ++ [pos]) l) (key : Int) :
    ∃ l', l.putElementToTheHeadOfLRUListD key = some (pos, l') ∧
      LruRep (pos :: used) unused l' ∧ l'.keys = Function.update l.keys pos key := by
  obtain ⟨l₁, hget, h₁, hkeys, hused, hunused⟩ := h.getFree
  have hpos : 0 ≤ pos := h.nonneg pos (by simp)
  have hlen := h₁.len
  have hnodup : (pos :: used ++ unused).Nodup := by
    rw [List.cons_append, List.nodup_cons, List.mem_append, not_or]
    exact ⟨⟨hused, hunused⟩, h₁.nodup⟩
  have hnonneg : ∀ p ∈ pos :: used ++ unused, 0 ≤ p := by
    intro p hp
    rcases List.mem_cons.mp hp with rfl | hp
    · exact hpos
    · exact h₁.nonneg p hp
  unfold LRUListD.putElementToTheHeadOfLRUListD
  rw [hget]
  simp only
  split
  · rename_i hone
    change l₁.len + 1 = 1 at hone
    obtain rfl : used = [] := List.eq_nil_of_length_eq_zero (by omega)
    refine ⟨_, rfl, ⟨hnodup, hnonneg, ⟨?_, ?_, fun p hp => Option.some.inj hp, fun p hp => ?_⟩,
      hone, ?_, h₁.freeTail, h₁.freeLen⟩, ?_⟩
    · change (((l₁.setKey pos key).setNext pos _).setPrevious pos _).nexts pos = _
      rw [LRUListD.setPrevious_nexts, LRUListD.setNext_nexts, Function.update_self]
    · change (((l₁.setKey pos key).setNext pos _).setPrevious pos _).previouses pos = _
      rw [LRUListD.setPrevious_previouses, Function.update_self]
    · exact Option.some.inj hp
    · change Linked (((l₁.setKey pos key).setNext pos _).setPrevious pos _).previouses _ _
      rw [LRUListD.setPrevious_previouses, LRUListD.setNext_previouses, LRUListD.setKey_previouses]
      exact h₁.freePrevious.update (fun hm => hunused (List.mem_reverse.mp hm)) _
    · change (((l₁.setKey pos key).setNext pos _).setPrevious pos _).keys = _
      rw [LRUListD.setPrevious_keys, LRUListD.setNext_keys, LRUListD.setKey_keys, hkeys]
  · rename_i hmore
    change ¬ l₁.len + 1 = 1 at hmore
    obtain ⟨first, rest, rfl⟩ : ∃ first rest, used = first :: rest := by
      refine List.exists_cons_of_ne_nil ?_
      rintro rfl
      simp only [List.length_nil] at hlen
      omega
    have hthreaded : Threaded (first :: rest)
        { l₁.setKey pos key with len := (l₁.setKey pos key).len + 1 } := by
      refine ⟨?_, ?_, h₁.threaded.head, h₁.threaded.tail⟩
      · change Linked (l₁.setKey pos key).nexts _ _
        rw [LRUListD.setKey_nexts]
        exact h₁.threaded.next
      · change Linked (l₁.setKey pos key).previouses _ _
        rw [LRUListD.setKey_previouses]
        exact h₁.threaded.previous
    obtain ⟨hlinked, hframe, hframePrev⟩ :=
      hthreaded.linkHead (List.nodup_append.mp h₁.nodup).1 hused
    refine ⟨_, rfl, ⟨hnodup, hnonneg, hlinked, hframe.len.trans ?_, ?_,
      fun p hp => hframe.freeTail.trans (h₁.freeTail p hp), hframe.freeLen.trans h₁.freeLen⟩,
      hframe.keys.trans ?_⟩
    · change l₁.len + 1 = _
      rw [hlen]
      rfl
    · refine h₁.freePrevious.congr fun p hp => ?_
      have hnot : p ∉ pos :: first :: rest := fun hm =>
        (List.nodup_append.mp hnodup).2.2 p hm p (List.mem_reverse.mp hp) rfl
      refine (hframePrev p hnot).trans ?_
      change (l₁.setKey pos key).previouses p = _
      rw [LRUListD.setKey_previouses]
    · change (l₁.setKey pos key).keys = _
      rw [LRUListD.setKey_keys, hkeys]

/-- The list as it is created: every element is unused. -/
theorem createLRUListD_rep (memory : Int → LRUElementD) {len : Int} (hlen : 0 ≤ len) :
    LruRep [] ((List.range len.toNat).map fun i : Nat => (i : Int))
      (createLRUListD memory len) := by
  have hprevious : ∀ i : Nat, i < len → (createLRUListD memory len).previouses i =
      if i = 0 then lruElementPointToNull else i - 1 := by
    intro i hi
    simp only [LRUListD.previouses, createLRUListD, Function.comp, Function.update_apply,
      apply_ite LRUElementD.previous]
    split_ifs <;> omega
  have hlinked : ∀ n : Nat, n ≤ len → Linked (createLRUListD memory len).previouses
      lruElementPointToNull ((List.range n).map fun i : Nat => (i : Int)).reverse := by
    intro n hn
    induction n with
    | zero => trivial
    | succ n ih =>
      have hn' := hprevious n (by omega)
      have hrest := ih (by omega)
      rw [List.range_succ, List.map_append, List.reverse_append]
      cases n with
      | zero => exact hn'
      | succ m =>
        rw [List.range_succ, List.map_append, List.reverse_append] at hrest ⊢
        refine ⟨?_, hrest⟩
        rw [hn', if_neg (by omega)]
        push_cast
        omega
  have hmem : ∀ p ∈ (List.range len.toNat).map fun i : Nat => (i : Int), 0 ≤ p := by
    intro p hp
    obtain ⟨i, -, rfl⟩ := List.mem_map.mp hp
    exact Int.natCast_nonneg i
  refine ⟨?_, hmem, ⟨trivial, trivial, by simp, by simp⟩, rfl, hlinked _ (by omega), ?_, ?_⟩
  · exact List.nodup_range.map fun a b hab => Int.ofNat.inj hab
  · intro p hp
    change len - 1 = p
    cases hn : len.toNat with
    | zero =>
      rw [hn] at hp
      simp at hp
    | succ n =>
      rw [hn, List.range_succ, List.map_append, List.getLast?_append] at hp
      have hlast : (n : Int) = p := by simpa using hp
      omega
  · change len = _
    simp [hlen]

end WiscKey.Flash
