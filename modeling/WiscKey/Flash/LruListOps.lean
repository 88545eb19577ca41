import WiscKey.Flash.DftlCache
import WiscKey.Library.Recency

/-!
# The operations of the LRU list on its entries

The slots of the array are shared between two lists threaded both ways. Each operation has one
lemma that says what becomes of both lists, of the keys and of the dirty flags.
-/

namespace WiscKey.Flash

namespace LRUListD

/-- The dirty flags of the elements. -/
def dirties (l : LRUListD) : Int → Bool := LRUElementD.dirty ∘ l.element

section Fields

variable (l : LRUListD) (pos value : Int)

@[simp] theorem setNext_dirties : (l.setNext pos value).dirties = l.dirties :=
  (Function.comp_update ..).trans (Function.update_eq_self ..)

@[simp] theorem setPrevious_dirties : (l.setPrevious pos value).dirties = l.dirties :=
  (Function.comp_update ..).trans (Function.update_eq_self ..)

@[simp] theorem setKey_dirties : (l.setKey pos value).dirties = l.dirties :=
  (Function.comp_update ..).trans (Function.update_eq_self ..)

theorem setDirty_dirties (dirty : Bool) :
    (l.setDirty pos dirty).dirties = Function.update l.dirties pos dirty :=
  Function.comp_update ..

/-- Unlinking and linking elements leaves the flags and the head of the unused ones alone. -/
theorem unlinkElement_frame : (l.unlinkElement pos).dirties = l.dirties ∧
    (l.unlinkElement pos).freeHead = l.freeHead := by
  unfold unlinkElement
  split
  · exact ⟨setPrevious_dirties .., rfl⟩
  · split
    · exact ⟨setNext_dirties .., rfl⟩
    · refine ⟨?_, rfl⟩
      simp only [setPrevious_dirties, setNext_dirties]

theorem linkHead_frame : (l.linkHead pos).dirties = l.dirties ∧
    (l.linkHead pos).freeHead = l.freeHead := by
  refine ⟨?_, rfl⟩
  change (((l.setNext pos _).setPrevious pos _).setPrevious _ pos).dirties = _
  simp only [setPrevious_dirties, setNext_dirties]

theorem linkHead_nexts : (l.linkHead pos).nexts = Function.update l.nexts pos l.head := by
  change (((l.setNext pos l.head).setPrevious pos _).setPrevious _ pos).nexts = _
  simp only [setPrevious_nexts, setNext_nexts]

end Fields

end LRUListD

/-- The positions of the array. -/
def lruSlots (capacity : Nat) : List Int := (List.range capacity).map fun i : Nat => (i : Int)

/-- The two lists share the slots of the array: those in use and the unused ones are threaded
both ways, each from its head to its tail. -/
structure LruWhole (capacity : Nat) (used unused : List Int) (l : LRUListD) : Prop where
  rep : LruRep used unused l
  freeNext : Linked l.nexts lruElementPointToNull unused
  freeHead : ∀ p, unused.head? = some p → l.freeHead = p
  slots : (used ++ unused).Perm (lruSlots capacity)

/-- An entry of the list: a key and its dirty flag. -/
def LRUListD.entry (l : LRUListD) (p : Int) : Int × Bool := (l.keys p, l.dirties p)

variable {capacity : Nat} {used unused l₁ l₂ : List Int} {l l' : LRUListD} {pos key : Int}

/-- Unlinking an element writes no link to the next one outside the list. -/
theorem Threaded.unlink_nexts (h : Threaded (l₁ ++ pos :: l₂) l)
    (hnodup : (l₁ ++ pos :: l₂).Nodup) {p : Int} (hp : p ∉ l₁ ++ l₂) :
    (l.unlinkElement pos).nexts p = l.nexts p := by
  have hhead := h.head_eq_iff hnodup
  have hprevious := h.previous
  rw [List.reverse_append, List.reverse_cons, List.append_assoc] at hprevious
  have hprev := (Linked.append_cons_iff.mp hprevious).2
  unfold LRUListD.unlinkElement
  split
  · simp only [LRUListD.setPrevious_nexts]
    rfl
  · rename_i hne
    have hmem : (l.element pos).previous ∈ l₁ := by
      rcases List.eq_nil_or_concat l₁ with rfl | ⟨init, q, rfl⟩
      · exact absurd (hhead.mpr rfl).symm hne
      · rw [List.concat_eq_append, List.reverse_append] at hprev
        have hq : (l.element pos).previous = q := hprev.1
        rw [hq]
        simp
    have hother : p ≠ (l.element pos).previous := fun he =>
      hp (List.mem_append_left _ (he ▸ hmem))
    split
    · simp only [LRUListD.setNext_nexts]
      exact Function.update_of_ne hother ..
    · simp only [LRUListD.setPrevious_nexts, LRUListD.setNext_nexts]
      exact Function.update_of_ne hother ..

/-- A slot goes in front of the unused ones. -/
theorem LruWhole.putFree (hrep : LruRep used unused l)
    (hnext : Linked l.nexts lruElementPointToNull unused)
    (hhead : ∀ p, unused.head? = some p → l.freeHead = p)
    (hslots : (used ++ pos :: unused).Perm (lruSlots capacity)) (hpos : 0 ≤ pos)
    (hnot : pos ∉ used ++ unused) :
    LruWhole capacity used (pos :: unused) (l.putElementToFreeElementListD pos) ∧
      (l.putElementToFreeElementListD pos).keys = Function.update l.keys pos lruElementFree ∧
      (l.putElementToFreeElementListD pos).dirties = l.dirties := by
  have hnodup : (used ++ pos :: unused).Nodup :=
    List.perm_middle.nodup_iff.mpr (List.nodup_cons.mpr ⟨hnot, hrep.nodup⟩)
  have hnonneg : ∀ p ∈ used ++ pos :: unused, 0 ≤ p := by
    intro p hp
    rcases List.mem_cons.mp (List.perm_middle.mem_iff.mp hp) with rfl | hp
    · exact hpos
    · exact hrep.nonneg p hp
  rw [List.mem_append, not_or] at hnot
  have hlen := hrep.freeLen
  cases unused with
  | nil =>
    have hform : l.putElementToFreeElementListD pos =
        { ((l.setNext pos lruElementPointToNull).setPrevious pos lruElementPointToNull).setKey
            pos lruElementFree with freeLen := 1, freeHead := pos, freeTail := pos } := by
      have hzero : l.freeLen = 0 := hlen
      unfold LRUListD.putElementToFreeElementListD
      simp only [hzero, Int.zero_add, if_true]
      rfl
    have hnexts : (l.putElementToFreeElementListD pos).nexts =
        Function.update l.nexts pos lruElementPointToNull := by
      rw [hform]
      change (((l.setNext pos _).setPrevious pos _).setKey pos _).nexts = _
      simp only [LRUListD.setKey_nexts, LRUListD.setPrevious_nexts, LRUListD.setNext_nexts]
    have hpreviouses : (l.putElementToFreeElementListD pos).previouses =
        Function.update l.previouses pos lruElementPointToNull := by
      rw [hform]
      change (((l.setNext pos _).setPrevious pos _).setKey pos _).previouses = _
      simp only [LRUListD.setKey_previouses, LRUListD.setPrevious_previouses,
        LRUListD.setNext_previouses]
    refine ⟨⟨⟨hnodup, hnonneg, ⟨?_, ?_, ?_, ?_⟩, ?_, ?_, ?_, ?_⟩, ?_, ?_, hslots⟩, ?_, ?_⟩
    · rw [hnexts]
      exact hrep.threaded.next.update hnot.1 _
    · rw [hpreviouses]
      exact hrep.threaded.previous.update (fun hm => hnot.1 (List.mem_reverse.mp hm)) _
    · rw [hform]
      exact hrep.threaded.head
    · rw [hform]
      exact hrep.threaded.tail
    · rw [hform]
      exact hrep.len
    · rw [hpreviouses]
      exact Function.update_self ..
    · rw [hform]
      exact fun p hp => Option.some.inj hp
    · rw [hform]
      rfl
    · rw [hnexts]
      exact Function.update_self ..
    · rw [hform]
      exact fun p hp => Option.some.inj hp
    · rw [hform]
      change (((l.setNext pos _).setPrevious pos _).setKey pos _).keys = _
      simp only [LRUListD.setKey_keys, LRUListD.setPrevious_keys, LRUListD.setNext_keys]
    · rw [hform]
      change (((l.setNext pos _).setPrevious pos _).setKey pos _).dirties = _
      simp only [LRUListD.setKey_dirties, LRUListD.setPrevious_dirties, LRUListD.setNext_dirties]
  | cons first rest =>
    have hfirst : l.freeHead = first := hhead first rfl
    rw [List.mem_cons, not_or] at hnot
    obtain ⟨hnotUsed, hne, hnotRest⟩ := hnot
    have hfirstUsed : first ∉ used := fun hm =>
      (List.nodup_append.mp hrep.nodup).2.2 first hm first List.mem_cons_self rfl
    have hfirstRest := (List.nodup_cons.mp (List.nodup_append.mp hrep.nodup).2.1).1
    have hmany : ¬ l.freeLen + 1 = 1 := by
      rw [List.length_cons] at hlen
      omega
    have hform : l.putElementToFreeElementListD pos =
        { (((l.setPrevious pos lruElementPointToNull).setNext pos first).setPrevious first
            pos).setKey pos lruElementFree with freeLen := l.freeLen + 1, freeHead := pos } := by
      unfold LRUListD.putElementToFreeElementListD
      simp only [if_neg hmany, LRUListD.setNext, LRUListD.setPrevious, LRUListD.setKey, hfirst]
    have hnexts : (l.putElementToFreeElementListD pos).nexts =
        Function.update l.nexts pos first := by
      rw [hform]
      change ((((l.setPrevious pos _).setNext pos _).setPrevious first _).setKey pos _).nexts = _
      simp only [LRUListD.setKey_nexts, LRUListD.setPrevious_nexts, LRUListD.setNext_nexts]
    have hpreviouses : (l.putElementToFreeElementListD pos).previouses =
        Function.update (Function.update l.previouses pos lruElementPointToNull) first pos := by
      rw [hform]
      change ((((l.setPrevious pos _).setNext pos _).setPrevious first _).setKey pos
        _).previouses = _
      simp only [LRUListD.setKey_previouses, LRUListD.setPrevious_previouses,
        LRUListD.setNext_previouses]
    refine ⟨⟨⟨hnodup, hnonneg, ⟨?_, ?_, ?_, ?_⟩, ?_, ?_, ?_, ?_⟩, ?_, ?_, hslots⟩, ?_, ?_⟩
    · rw [hnexts]
      exact hrep.threaded.next.update hnotUsed _
    · rw [hpreviouses]
      refine (hrep.threaded.previous.update (fun hm => hnotUsed (List.mem_reverse.mp hm)) _).update
        (fun hm => hfirstUsed (List.mem_reverse.mp hm)) _
    · rw [hform]
      exact hrep.threaded.head
    · rw [hform]
      exact hrep.threaded.tail
    · rw [hform]
      exact hrep.len
    · have hfree := hrep.freePrevious.update (fun hm => by
        rcases List.mem_cons.mp (List.mem_reverse.mp hm) with he | hm
        · exact hne he
        · exact hnotRest hm) lruElementPointToNull
      rw [List.reverse_cons] at hfree
      rw [hpreviouses, List.reverse_cons, List.reverse_cons, Linked.append_cons_iff]
      refine ⟨hfree.relink (by simpa using hfirstRest) pos, ?_⟩
      change Function.update (Function.update l.previouses pos _) first pos pos = _
      rw [Function.update_of_ne hne, Function.update_self]
    · rw [hform]
      intro p hp
      exact hrep.freeTail p (by rwa [List.getLast?_cons_cons] at hp)
    · rw [hform]
      change l.freeLen + 1 = _
      rw [hlen]
      rfl
    · rw [hnexts]
      exact ⟨Function.update_self .., hnext.update (by simp [hne, hnotRest]) _⟩
    · rw [hform]
      exact fun p hp => Option.some.inj hp
    · rw [hform]
      change ((((l.setPrevious pos _).setNext pos _).setPrevious first _).setKey pos _).keys = _
      simp only [LRUListD.setKey_keys, LRUListD.setPrevious_keys, LRUListD.setNext_keys]
    · rw [hform]
      change ((((l.setPrevious pos _).setNext pos _).setPrevious first _).setKey pos _).dirties = _
      simp only [LRUListD.setKey_dirties, LRUListD.setPrevious_dirties, LRUListD.setNext_dirties]

/-- The two lists depend on the links only. -/
theorem LruWhole.setDirty (h : LruWhole capacity used unused l) (pos : Int) (dirty : Bool) :
    LruWhole capacity used unused (l.setDirty pos dirty) := by
  have hnexts : (l.setDirty pos dirty).nexts = l.nexts :=
    (Function.comp_update ..).trans (Function.update_eq_self ..)
  have hpreviouses : (l.setDirty pos dirty).previouses = l.previouses :=
    (Function.comp_update ..).trans (Function.update_eq_self ..)
  refine ⟨⟨h.rep.nodup, h.rep.nonneg, ⟨?_, ?_, h.rep.threaded.head, h.rep.threaded.tail⟩,
    h.rep.len, ?_, h.rep.freeTail, h.rep.freeLen⟩, ?_, h.freeHead, h.slots⟩
  · rw [hnexts]
    exact h.rep.threaded.next
  · rw [hpreviouses]
    exact h.rep.threaded.previous
  · rw [hpreviouses]
    exact h.rep.freePrevious
  · rw [hnexts]
    exact h.freeNext

/-- An element has left the ones in use. -/
theorem LruRep.drop (h : LruRep (l₁ ++ pos :: l₂) unused l) (hthreaded : Threaded (l₁ ++ l₂) l')
    (hlen : l'.len = l.len - 1) (hfreeTail : l'.freeTail = l.freeTail)
    (hfreeLen : l'.freeLen = l.freeLen)
    (hprevious : ∀ p ∈ unused, l'.previouses p = l.previouses p) : LruRep (l₁ ++ l₂) unused l' := by
  have hsub : (l₁ ++ l₂ ++ unused).Sublist (l₁ ++ pos :: l₂ ++ unused) :=
    ((List.sublist_cons_self pos l₂).append_left l₁).append_right unused
  refine ⟨h.nodup.sublist hsub, fun p hp => h.nonneg p (hsub.subset hp), hthreaded, ?_, ?_, ?_, ?_⟩
  · rw [hlen, h.len]
    simp only [List.length_append, List.length_cons]
    omega
  · exact h.freePrevious.congr fun p hp => hprevious p (List.mem_reverse.mp hp)
  · rw [hfreeTail]
    exact h.freeTail
  · rw [hfreeLen, h.freeLen]

/-- What is left of the slots when one leaves the ones in use. -/
theorem LruWhole.split (h : LruWhole capacity (l₁ ++ pos :: l₂) unused l) :
    pos ∉ l₁ ++ l₂ ++ unused ∧ 0 ≤ pos ∧
      (l₁ ++ l₂ ++ pos :: unused).Perm (lruSlots capacity) := by
  have hperm : (pos :: (l₁ ++ l₂ ++ unused)).Perm (l₁ ++ pos :: l₂ ++ unused) :=
    (List.perm_middle.append_right unused).symm
  refine ⟨(List.nodup_cons.mp (hperm.nodup_iff.mpr h.rep.nodup)).1, h.rep.nonneg pos (by simp), ?_⟩
  exact List.perm_middle.trans (hperm.trans h.slots)

/-- An element leaves the list at its position. -/
theorem LruWhole.remove (h : LruWhole capacity (l₁ ++ pos :: l₂) unused l)
    (hkey : l.keys pos = key) :
    LruWhole capacity (l₁ ++ l₂) (pos :: unused) (l.removeElemenetFromLRUListD key pos) ∧
      (l.removeElemenetFromLRUListD key pos).keys =
        Function.update l.keys pos lruElementFree ∧
      (l.removeElemenetFromLRUListD key pos).dirties = l.dirties := by
  obtain ⟨hnot, hpos, hslots⟩ := h.split
  have hnodup := (List.nodup_append.mp h.rep.nodup).1
  have hlen := h.rep.len
  have hunused : ∀ p ∈ unused, p ∉ l₁ ++ l₂ := by
    intro p hp hm
    refine (List.nodup_append.mp h.rep.nodup).2.2 p ?_ p hp rfl
    exact List.perm_middle.mem_iff.mpr (List.mem_cons_of_mem pos hm)
  have hkey' : (l.element pos).key = key := hkey
  unfold LRUListD.removeElemenetFromLRUListD
  rw [if_neg (not_not.mpr hkey')]
  by_cases hmore : 1 < l.len
  · rw [if_pos hmore]
    have hne : l₁ ++ l₂ ≠ [] := by
      intro hnil
      have hlen' := congrArg List.length hnil
      simp only [List.length_append, List.length_cons, List.length_nil] at hlen hlen'
      omega
    obtain ⟨hunlinked, hframe, hprevious⟩ := h.rep.threaded.unlink hnodup hne
    obtain ⟨hdirties, hfreeHead⟩ := l.unlinkElement_frame pos
    have hrep : LruRep (l₁ ++ l₂) unused { l.unlinkElement pos with len := l.len - 1 } :=
      h.rep.drop ⟨hunlinked.next, hunlinked.previous, hunlinked.head, hunlinked.tail⟩ rfl
        hframe.freeTail hframe.freeLen fun p hp => hprevious p (hunused p hp)
    have hnext : Linked (l.unlinkElement pos).nexts lruElementPointToNull unused :=
      h.freeNext.congr fun p hp => h.rep.threaded.unlink_nexts hnodup (hunused p hp)
    obtain ⟨hwhole, hkeys, hdirty⟩ := LruWhole.putFree hrep hnext
      (fun p hp => hfreeHead.trans (h.freeHead p hp)) hslots hpos hnot
    simp only [hframe.len]
    refine ⟨hwhole, hkeys.trans ?_, hdirty.trans hdirties⟩
    exact congrArg (fun keys => Function.update keys pos lruElementFree) hframe.keys
  · rw [if_neg hmore]
    have hnil : l₁ = [] ∧ l₂ = [] := by
      simp only [List.length_append, List.length_cons] at hlen
      refine ⟨List.eq_nil_of_length_eq_zero (by omega), List.eq_nil_of_length_eq_zero (by omega)⟩
    obtain ⟨rfl, rfl⟩ := hnil
    have hrep : LruRep ([] ++ []) unused { l with len := l.len - 1 } :=
      h.rep.drop ⟨trivial, trivial, by simp, by simp⟩ rfl rfl rfl fun p _ => rfl
    exact LruWhole.putFree hrep h.freeNext h.freeHead hslots hpos hnot

/-- An element moves to the head. -/
theorem LruWhole.moveFront (h : LruWhole capacity (l₁ ++ pos :: l₂) unused l)
    (hkey : l.keys pos = key) :
    LruWhole capacity (pos :: (l₁ ++ l₂)) unused (l.moveElemenetToTheHeadofLRUListD key pos) ∧
      (l.moveElemenetToTheHeadofLRUListD key pos).keys = l.keys ∧
      (l.moveElemenetToTheHeadofLRUListD key pos).dirties = l.dirties := by
  obtain ⟨hrep, hkeys⟩ := h.rep.moveFront hkey
  obtain ⟨hnot, -, -⟩ := h.split
  have hnodup := (List.nodup_append.mp h.rep.nodup).1
  have hunused : ∀ p ∈ unused, p ∉ l₁ ++ pos :: l₂ := fun p hp hm =>
    (List.nodup_append.mp h.rep.nodup).2.2 p hm p hp rfl
  have hkey' : (l.element pos).key = key := hkey
  have hframe : (l.moveElemenetToTheHeadofLRUListD key pos).dirties = l.dirties ∧
      (l.moveElemenetToTheHeadofLRUListD key pos).freeHead = l.freeHead ∧
      ∀ p ∈ unused, (l.moveElemenetToTheHeadofLRUListD key pos).nexts p = l.nexts p := by
    unfold LRUListD.moveElemenetToTheHeadofLRUListD
    rw [if_neg (not_not.mpr hkey')]
    split
    · obtain ⟨hdirties, hfreeHead⟩ := l.unlinkElement_frame pos
      obtain ⟨hdirties', hfreeHead'⟩ := (l.unlinkElement pos).linkHead_frame pos
      refine ⟨hdirties'.trans hdirties, hfreeHead'.trans hfreeHead, fun p hp => ?_⟩
      have hne : p ≠ pos := fun he => hnot (by simp [← he, hp])
      rw [LRUListD.linkHead_nexts, Function.update_of_ne hne]
      exact h.rep.threaded.unlink_nexts hnodup fun hm =>
        hunused p hp (List.perm_middle.mem_iff.mpr (List.mem_cons_of_mem pos hm))
    · exact ⟨rfl, rfl, fun p _ => rfl⟩
  obtain ⟨hdirties, hfreeHead, hnexts⟩ := hframe
  refine ⟨⟨hrep, h.freeNext.congr hnexts, fun p hp => hfreeHead.trans (h.freeHead p hp), ?_⟩,
    hkeys, hdirties⟩
  exact (List.perm_middle.symm.append_right unused).trans h.slots

/-- The last element leaves the list; a dirty one costs a write. -/
theorem LruWhole.removeTail (h : LruWhole capacity (used ++ [pos]) unused l)
    (timeWritePage time : Int) :
    ∃ l', l.removeTheTailElemenetFromLRUListD timeWritePage time =
        some (l.keys pos, l', if l.dirties pos then time + timeWritePage else time) ∧
      LruWhole capacity used (pos :: unused) l' ∧
      l'.keys = Function.update l.keys pos lruElementFree ∧ l'.dirties = l.dirties := by
  have hsplit := h.split
  rw [List.append_nil] at hsplit
  obtain ⟨hnot, hpos, hslots⟩ := hsplit
  have hlen := h.rep.len
  rw [List.length_append, List.length_singleton] at hlen
  have htail : l.tail = pos := h.rep.threaded.tail pos (by simp)
  unfold LRUListD.removeTheTailElemenetFromLRUListD
  rw [if_neg (by omega)]
  simp only [htail]
  by_cases hmore : 0 < l.len - 1
  · rw [if_pos hmore]
    have hne : used ≠ [] := by
      rintro rfl
      simp only [List.length_nil] at hlen
      omega
    obtain ⟨init, last, rfl⟩ := (List.eq_nil_or_concat used).resolve_left hne
    rw [List.concat_eq_append] at *
    have hprevious := h.rep.threaded.previous
    rw [List.reverse_append, List.reverse_append] at hprevious
    have hlast : (l.element pos).previous = last := hprevious.1
    have hlastInit : last ∉ init := by
      have hnodup := (List.nodup_append.mp (List.nodup_append.mp h.rep.nodup).1).1
      exact fun hm => (List.nodup_append.mp hnodup).2.2 last hm last (by simp) rfl
    have hlastUnused : last ∉ unused := fun hm =>
      (List.nodup_append.mp h.rep.nodup).2.2 last (by simp) last hm rfl
    let l₀ : LRUListD := ({ l with len := l.len - 1, tail := last } : LRUListD).setNext last
      lruElementPointToNull
    have hnexts : l₀.nexts = Function.update l.nexts last lruElementPointToNull :=
      LRUListD.setNext_nexts ..
    have hpreviouses : l₀.previouses = l.previouses := LRUListD.setNext_previouses ..
    have hthreaded : Threaded (init ++ [last] ++ []) l₀ := by
      refine ⟨?_, ?_, fun p hp => h.rep.threaded.head p ?_, fun p hp => ?_⟩
      · rw [hnexts, List.append_nil]
        have hnext := h.rep.threaded.next
        rw [Linked.append_cons_iff] at hnext
        exact hnext.1.relink hlastInit _
      · rw [hpreviouses, List.append_nil, List.reverse_append]
        exact hprevious.2
      · rw [List.append_nil] at hp
        rw [List.head?_append, hp]
        rfl
      · change last = p
        simpa using hp
    have hrep := h.rep.drop hthreaded rfl rfl rfl fun p _ => congrFun hpreviouses p
    rw [List.append_nil] at hrep
    have hfree : Linked l₀.nexts lruElementPointToNull unused := by
      rw [hnexts]
      exact h.freeNext.update hlastUnused _
    obtain ⟨hwhole, hkeys, hdirty⟩ := LruWhole.putFree hrep hfree h.freeHead hslots hpos hnot
    rw [hlast]
    refine ⟨_, rfl, hwhole, hkeys.trans ?_, hdirty.trans (LRUListD.setNext_dirties ..)⟩
    exact congrArg (fun keys => Function.update keys pos lruElementFree) (LRUListD.setNext_keys ..)
  · rw [if_neg hmore]
    obtain rfl : used = [] := List.eq_nil_of_length_eq_zero (by omega)
    have hrep : LruRep ([] ++ []) unused { l with len := l.len - 1, tail := pos } :=
      h.rep.drop ⟨trivial, trivial, by simp, by simp⟩ rfl rfl rfl fun p _ => rfl
    exact ⟨_, rfl, LruWhole.putFree hrep h.freeNext h.freeHead hslots hpos hnot⟩

/-- Taking the last unused slot leaves the others threaded. -/
theorem LruWhole.getFree_frame (h : LruWhole capacity used (unused ++ [pos]) l)
    (hget : l.getElementFromFreeElementListD = some (pos, l')) :
    l'.dirties = l.dirties ∧ Linked l'.nexts lruElementPointToNull unused ∧
      ∀ p, unused.head? = some p → l'.freeHead = p := by
  have hlen : l.freeLen = unused.length + 1 := by
    rw [h.rep.freeLen, List.length_append]
    rfl
  have htail : l.freeTail = pos := h.rep.freeTail pos (by simp)
  have hfree := h.rep.freePrevious
  rw [List.reverse_append] at hfree
  unfold LRUListD.getElementFromFreeElementListD at hget
  rw [if_neg (by omega)] at hget
  simp only [htail] at hget
  split at hget
  · rename_i hone
    obtain rfl : unused = [] := List.eq_nil_of_length_eq_zero (by omega)
    obtain rfl := (Prod.mk.inj (Option.some.inj hget)).2
    exact ⟨rfl, trivial, by simp⟩
  · rename_i hmore
    have hne : unused ≠ [] := by
      rintro rfl
      simp only [List.length_nil] at hlen
      omega
    obtain ⟨rest, last, rfl⟩ := (List.eq_nil_or_concat unused).resolve_left hne
    rw [List.concat_eq_append] at *
    have hlast : (l.element pos).previous = last := by
      rw [List.reverse_append] at hfree
      exact hfree.1
    have hlastRest : last ∉ rest := by
      have hnodup := (List.nodup_append.mp (List.nodup_append.mp h.rep.nodup).2.1).1
      exact fun hm => (List.nodup_append.mp hnodup).2.2 last hm last (by simp) rfl
    rw [hlast] at hget
    obtain rfl := (Prod.mk.inj (Option.some.inj hget)).2
    refine ⟨LRUListD.setNext_dirties .., ?_, fun p hp => h.freeHead p ?_⟩
    · have hnext := h.freeNext
      rw [Linked.append_cons_iff] at hnext
      rw [LRUListD.setNext_nexts]
      exact hnext.1.relink hlastRest _
    · rw [List.head?_append, hp]
      rfl

/-- Filling the slot writes no other link to a next one. -/
theorem putElement_frame {l₀ : LRUListD}
    (hget : l.getElementFromFreeElementListD = some (pos, l₀))
    (hput : l.putElementToTheHeadOfLRUListD key = some (pos, l')) :
    l'.dirties = l₀.dirties ∧ l'.freeHead = l₀.freeHead ∧
      ∀ p, p ≠ pos → l'.nexts p = l₀.nexts p := by
  unfold LRUListD.putElementToTheHeadOfLRUListD at hput
  rw [hget] at hput
  simp only at hput
  split at hput
  · obtain rfl := (Prod.mk.inj (Option.some.inj hput)).2
    refine ⟨?_, rfl, fun p hp => ?_⟩
    · change (((l₀.setKey pos key).setNext pos _).setPrevious pos _).dirties = _
      simp only [LRUListD.setPrevious_dirties, LRUListD.setNext_dirties, LRUListD.setKey_dirties]
    · change (((l₀.setKey pos key).setNext pos _).setPrevious pos _).nexts p = _
      rw [LRUListD.setPrevious_nexts, LRUListD.setNext_nexts, LRUListD.setKey_nexts,
        Function.update_of_ne hp]
  · obtain rfl := (Prod.mk.inj (Option.some.inj hput)).2
    let filled : LRUListD := { l₀.setKey pos key with len := l₀.len + 1 }
    have hnexts : filled.nexts = l₀.nexts := LRUListD.setKey_nexts ..
    obtain ⟨hdirties, hfreeHead⟩ := filled.linkHead_frame pos
    refine ⟨hdirties.trans (LRUListD.setKey_dirties ..), hfreeHead, fun p hp => ?_⟩
    refine (congrFun (LRUListD.linkHead_nexts filled pos) p).trans ?_
    rw [Function.update_of_ne hp, hnexts]

/-- A key goes to the last of the unused slots, whose flag it takes over. -/
theorem LruWhole.insertHead (h : LruWhole capacity used (unused ++ [pos]) l) (key : Int) :
    ∃ l', l.putElementToTheHeadOfLRUListD key = some (pos, l') ∧
      LruWhole capacity (pos :: used) unused l' ∧ l'.keys = Function.update l.keys pos key ∧
      l'.dirties = l.dirties := by
  obtain ⟨l', hput, hrep, hkeys⟩ := h.rep.insert key
  obtain ⟨l₀, hget, -⟩ := h.rep.getFree
  obtain ⟨hdirties₀, hnext₀, hhead₀⟩ := h.getFree_frame hget
  obtain ⟨hdirties, hfreeHead, hnexts⟩ := putElement_frame hget hput
  have hnot : ∀ p ∈ unused, p ≠ pos := fun p hp he =>
    (List.nodup_append.mp hrep.nodup).2.2 p (he ▸ List.mem_cons_self) p hp rfl
  refine ⟨l', hput, ⟨hrep, hnext₀.congr fun p hp => hnexts p (hnot p hp),
    fun p hp => hfreeHead.trans (hhead₀ p hp), ?_⟩, hkeys, hdirties.trans hdirties₀⟩
  have hperm : (pos :: used ++ unused).Perm (used ++ (unused ++ [pos])) := by
    rw [← List.append_assoc]
    exact (List.perm_append_singleton pos (used ++ unused)).symm
  exact hperm.trans h.slots

end WiscKey.Flash
