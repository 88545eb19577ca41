import WiscKey.Iterator.VisibleMap

/-!
# The search backward

`FindPrevUserEntry` goes back through a part of the stream and keeps the last version that it has
seen, until it sees a smaller user key while that version is a value. The internal iterator is then
in front of all versions of the key that is shown.
-/

namespace WiscKey

variable (ucmp : Comparator) (sequence : Nat)

/-- What the loop has kept of the entries that it went back through: that none is shown, or the
one that is, with only entries in front of it that cannot be seen. -/
def Kept (type : ValueType) (d : DBIter) (done : List TableEntry) : Prop :=
  match type with
  | .deletion => ∀ e, ¬ ShownIn ucmp sequence done e
  | .value => ∃ hidden e rest, done = hidden ++ e :: rest ∧ (∀ f ∈ hidden, ¬ Visible sequence f) ∧
      Visible sequence e ∧ IsValue e ∧ (d.savedKey, d.savedValue) = e.pair ∧
      ∀ f, ShownIn ucmp sequence done f → f = e

/-- The internal iterator is in front of all versions of the key of an entry, whose key and value
are saved. -/
def InFront (entries : List TableEntry) (d : DBIter) (e : TableEntry) : Prop :=
  ∃ before hidden rest, entries = before.reverse ++ (hidden ++ e :: rest) ∧
    (∀ f ∈ hidden, ¬ Visible sequence f) ∧ Visible sequence e ∧ IsValue e ∧
    (d.savedKey, d.savedValue) = e.pair ∧
    (∀ f ∈ before, ucmp.compare (extractUserKey f.key) (extractUserKey e.key) = .lt) ∧
    d.iter = .inFrontOf (hidden ++ e :: rest) before

/-- The iterator is at the last entry that is shown among those of a part of the keys, or there is
none. -/
def FoundPrev (entries : List TableEntry) (part : Bytes → Prop) (d : DBIter) : Prop :=
  (d.valid = false ∧ ∀ e, ShownIn ucmp sequence entries e → ¬ part (extractUserKey e.key)) ∨
    (d.valid = true ∧ d.direction = .reverse ∧ ∃ e, InFront ucmp sequence entries d e ∧
      part (extractUserKey e.key) ∧ ∀ f, ShownIn ucmp sequence entries f →
        part (extractUserKey f.key) →
          ucmp.compare (extractUserKey f.key) (extractUserKey e.key) ≠ .gt)

/-- What a loop that went back through a part of the keys has found, by the type of the last entry
that it has seen. -/
def FoundBack (entries : List TableEntry) (part : Bytes → Prop) (type : ValueType) (d : DBIter) :
    Prop :=
  match type with
  | .deletion => ∀ e, ShownIn ucmp sequence entries e → ¬ part (extractUserKey e.key)
  | .value => ∃ e, InFront ucmp sequence entries d e ∧ part (extractUserKey e.key) ∧
      ∀ f, ShownIn ucmp sequence entries f → part (extractUserKey f.key) →
        ucmp.compare (extractUserKey f.key) (extractUserKey e.key) ≠ .gt

variable {ucmp sequence} {entries before done out hidden rest after : List TableEntry}
  {e f : TableEntry} {part : Bytes → Prop} {type type' : ValueType} {d d' : DBIter}

/-- Entries that cannot be seen do not matter. -/
theorem shownIn_hidden (hhidden : ∀ f ∈ hidden, ¬ Visible sequence f) :
    ShownIn ucmp sequence (hidden ++ rest) f ↔ ShownIn ucmp sequence rest f := by
  rw [shownIn_append]
  constructor
  · rintro (h | h)
    · exact absurd h.visible (hhidden f h.mem)
    · exact h.1
  · exact fun h => .inr ⟨h, fun g hg hvisible => absurd hvisible (hhidden g hg)⟩

/-- The entry that the internal iterator is in front of is shown. -/
theorem InFront.shown (h : InFront ucmp sequence entries d e) :
    ShownIn ucmp sequence entries e := by
  obtain ⟨before, hidden, rest, rfl, hhidden, hvisible, hvalue, -, hlt, -⟩ := h
  refine shownIn_append.mpr (.inr ⟨(shownIn_hidden hhidden).mpr ?_, fun f hf _ heq => ?_⟩)
  · exact shownIn_cons.mpr (.inl ⟨rfl, hvisible, hvalue⟩)
  · rw [hlt f (List.mem_reverse.mp hf)] at heq
    exact Ordering.noConfusion heq

/-- An entry that cannot be seen changes nothing. -/
theorem Kept.cons_invisible (h : Kept ucmp sequence type d done) (he : ¬ Visible sequence e) :
    Kept ucmp sequence type d (e :: done) := by
  have hcons : ∀ f, ShownIn ucmp sequence (e :: done) f → ShownIn ucmp sequence done f := by
    intro f hf
    rcases shownIn_cons.mp hf with ⟨-, hvisible, -⟩ | ⟨hf, -⟩
    · exact absurd hvisible he
    · exact hf
  cases type with
  | deletion => exact fun f hf => h f (hcons f hf)
  | value =>
    obtain ⟨hidden, x, rest, rfl, hhidden, hvisible, hvalue, hsaved, honly⟩ := h
    refine ⟨e :: hidden, x, rest, rfl, fun f hf => ?_, hvisible, hvalue, hsaved,
      fun f hf => honly f (hcons f hf)⟩
    rcases List.mem_cons.mp hf with rfl | hf
    · exact he
    · exact hhidden f hf

/-- Where the loop goes on at an entry that can be seen, what it has kept is an older version of
the same key. -/
theorem Kept.same_key (h : Kept ucmp sequence type d done)
    (hle : ∀ f ∈ done, ucmp.compare (extractUserKey e.key) (extractUserKey f.key) ≠ .gt)
    (hgo : ¬ (type ≠ .deletion ∧ ucmp.compare (extractUserKey e.key) d.savedKey = .lt))
    (hf : ShownIn ucmp sequence done f) :
    ucmp.compare (extractUserKey e.key) (extractUserKey f.key) = .eq := by
  cases type with
  | deletion => exact absurd hf (h f)
  | value =>
    obtain ⟨hidden, x, rest, rfl, -, -, -, hsaved, honly⟩ := h
    obtain rfl := honly f hf
    have hkey : d.savedKey = extractUserKey f.key := congrArg Prod.fst hsaved
    rw [hkey] at hgo
    by_contra hne
    exact hgo ⟨ValueType.noConfusion, lt_of_not_gt_of_ne (hle f hf.mem) hne⟩

/-- One round of the loop: it stops at an entry with a smaller key than the one that is kept, or it
goes on in front of the entry. -/
theorem prevRound_spec (h : Kept ucmp sequence type d done)
    (hle : ∀ f ∈ done, ucmp.compare (extractUserKey e.key) (extractUserKey f.key) ≠ .gt) :
    (d.prevRound ucmp sequence type e = (none, d) ∧ type = .value ∧
        ucmp.compare (extractUserKey e.key) d.savedKey = .lt) ∨
      (∃ type' d', d.prevRound ucmp sequence type e = (some type', d') ∧
        d'.direction = d.direction ∧ Kept ucmp sequence type' d' (e :: done)) := by
  unfold DBIter.prevRound DBIter.parseKey
  cases hparse : parseInternalKey e.key with
  | none =>
    refine .inr ⟨_, _, rfl, rfl, Kept.cons_invisible h ?_⟩
    rintro ⟨ikey, hikey, -⟩
    exact absurd (hikey.symm.trans hparse) (Option.some_ne_none _)
  | some ikey =>
    have huser := (parseInternalKey_spec hparse).1
    by_cases hseq : ikey.sequence ≤ sequence
    · simp only [if_pos hseq, huser]
      split
      · rename_i hstop
        refine .inl ⟨rfl, ?_, hstop.2⟩
        cases type with
        | deletion => exact absurd rfl hstop.1
        | value => rfl
      · rename_i hgo
        have hsame := fun f hf => h.same_key (f := f) hle hgo hf
        have hvisible : Visible sequence e := ⟨ikey, hparse, hseq⟩
        -- a version that is newer hides what was kept
        have hcons : ∀ f, ShownIn ucmp sequence (e :: done) f → f = e ∧ IsValue e := by
          intro f hf
          rcases shownIn_cons.mp hf with ⟨rfl, -, hvalue⟩ | ⟨hf, hne⟩
          · exact ⟨rfl, hvalue⟩
          · exact absurd (hsame f hf) (hne hvisible)
        cases htype : ikey.type with
        | deletion =>
          refine .inr ⟨_, _, rfl, rfl, fun f hf => ?_⟩
          obtain ⟨ikey', hikey, hvalue⟩ := (hcons f hf).2
          obtain rfl := Option.some.inj (hparse.symm.trans hikey)
          exact ValueType.noConfusion (htype.symm.trans hvalue)
        | value =>
          exact .inr ⟨_, _, rfl, rfl, [], e, done, rfl, by simp, hvisible, ⟨ikey, hparse, htype⟩,
            rfl, fun f hf => (hcons f hf).1⟩
    · simp only [if_neg hseq]
      refine .inr ⟨_, _, rfl, rfl, Kept.cons_invisible h ?_⟩
      rintro ⟨ikey', hikey, hseq'⟩
      obtain rfl := Option.some.inj (hparse.symm.trans hikey)
      exact hseq hseq'

/-- The entry that is kept is the last one shown, once the entries in front have smaller keys. -/
theorem Kept.foundPrev (h : Kept ucmp sequence .value d done)
    (hentries : before.reverse ++ (done ++ out) = entries)
    (hpart : ∀ f ∈ done, Visible sequence f → part (extractUserKey f.key))
    (hout : ∀ f ∈ out, Visible sequence f → ¬ part (extractUserKey f.key))
    (hlt : ∀ f ∈ before, ucmp.compare (extractUserKey f.key) d.savedKey = .lt)
    (hiter : d.iter = .inFrontOf (done ++ out) before) :
    ∃ e, InFront ucmp sequence entries d e ∧ part (extractUserKey e.key) ∧
      ∀ f, ShownIn ucmp sequence entries f → part (extractUserKey f.key) →
        ucmp.compare (extractUserKey f.key) (extractUserKey e.key) ≠ .gt := by
  obtain ⟨hidden, x, rest, rfl, hhidden, hvisible, hvalue, hsaved, honly⟩ := h
  have hkey : d.savedKey = extractUserKey x.key := congrArg Prod.fst hsaved
  rw [hkey] at hlt
  refine ⟨x, ⟨before, hidden, rest ++ out, ?_, hhidden, hvisible, hvalue, hsaved, hlt, ?_⟩,
    hpart x (by simp) hvisible, fun f hf hf' => ?_⟩
  · rw [← hentries, List.append_assoc, List.cons_append]
  · rw [hiter, List.append_assoc, List.cons_append]
  · rw [← hentries] at hf
    rcases shownIn_append.mp hf with hf | ⟨hf, -⟩
    · rw [hlt f (List.mem_reverse.mp hf.mem)]
      exact Ordering.noConfusion
    rcases shownIn_append.mp hf with hf | ⟨hf, -⟩
    · obtain rfl := honly f hf
      exact not_gt_self
    · exact absurd hf' (hout f hf.mem hf.visible)

/-- The loop stops at an entry with a smaller key than the one that is kept. -/
theorem Kept.stop (h : Kept ucmp sequence .value d done) (hsorted : SortedStream ucmp entries)
    (hentries : before.reverse ++ e :: (done ++ out) = entries)
    (hpart : ∀ f ∈ done, Visible sequence f → part (extractUserKey f.key))
    (hout : ∀ f ∈ out, Visible sequence f → ¬ part (extractUserKey f.key))
    (hlt : ucmp.compare (extractUserKey e.key) d.savedKey = .lt) :
    ∃ f, InFront ucmp sequence entries { d with iter := .on before e (done ++ out) } f ∧
      part (extractUserKey f.key) ∧ ∀ g, ShownIn ucmp sequence entries g →
        part (extractUserKey g.key) →
          ucmp.compare (extractUserKey g.key) (extractUserKey f.key) ≠ .gt := by
  have hentries' : (e :: before).reverse ++ (done ++ out) = entries := by simpa using hentries
  refine Kept.foundPrev (d := { d with iter := _ }) h hentries' hpart hout (fun f hf => ?_) rfl
  rcases List.mem_cons.mp hf with rfl | hf
  · exact hlt
  · have hsorted' := hsorted
    rw [← hentries] at hsorted'
    exact lt_of_not_gt_of_lt
      (hsorted'.le_of_append (List.mem_reverse.mpr hf) List.mem_cons_self) hlt

/-- The loop stops where the entry that it has kept is in front, or it has gone through all and
nothing is shown. -/
theorem prevLoop_spec (hsorted : SortedStream ucmp entries)
    (hentries : before.reverse ++ e :: (done ++ out) = entries)
    (h : Kept ucmp sequence type d done)
    (hpart : ∀ f ∈ e :: (done ++ before), Visible sequence f → part (extractUserKey f.key))
    (hout : ∀ f ∈ out, Visible sequence f → ¬ part (extractUserKey f.key))
    (hloop : d.prevLoop ucmp sequence type e (done ++ out) before = (type', d')) :
    d'.direction = d.direction ∧ FoundBack ucmp sequence entries part type' d' := by
  induction before generalizing type d e done with
  | nil =>
    have hbehind := hsorted.userKeys
    rw [← hentries] at hbehind
    unfold DBIter.prevLoop at hloop
    obtain ⟨hnone, rfl, hlt⟩ | ⟨type₁, d₁, hsome, hdirection, hkept⟩ := prevRound_spec h
      fun f hf => (List.pairwise_cons.mp hbehind).1 f (List.mem_append_left _ hf)
    · rw [hnone] at hloop
      obtain ⟨rfl, rfl⟩ := Prod.mk.inj hloop
      exact ⟨rfl, h.stop hsorted hentries (fun f hf => hpart f (by simp [hf])) hout hlt⟩
    · rw [hsome] at hloop
      obtain ⟨rfl, rfl⟩ := Prod.mk.inj hloop
      refine ⟨hdirection, ?_⟩
      cases type₁ with
      | deletion =>
        intro f hf
        rw [← hentries, List.reverse_nil, List.nil_append, ← List.cons_append] at hf
        rcases shownIn_append.mp hf with hf | ⟨hf, -⟩
        · exact absurd hf (hkept f)
        · exact hout f hf.mem hf.visible
      | value =>
        have hentries' : ([] : List TableEntry).reverse ++ (e :: done ++ out) = entries := hentries
        exact Kept.foundPrev (d := { d₁ with iter := _ }) hkept hentries'
          (fun f hf => hpart f (by simpa using hf)) hout (by simp) rfl
  | cons g before ih =>
    have hbehind := hsorted.userKeys
    rw [← hentries, List.pairwise_append] at hbehind
    unfold DBIter.prevLoop at hloop
    obtain ⟨hnone, rfl, hlt⟩ | ⟨type₁, d₁, hsome, hdirection, hkept⟩ := prevRound_spec h
      fun f hf => (List.pairwise_cons.mp hbehind.2.1).1 f (List.mem_append_left _ hf)
    · rw [hnone] at hloop
      obtain ⟨rfl, rfl⟩ := Prod.mk.inj hloop
      exact ⟨rfl, h.stop hsorted hentries (fun f hf => hpart f (by simp [hf])) hout hlt⟩
    · rw [hsome] at hloop
      have hentries' : before.reverse ++ g :: (e :: done ++ out) = entries := by
        simpa using hentries
      obtain ⟨hdirection', hfound⟩ := ih hentries' hkept
        (fun f hf => hpart f (by simp only [List.mem_cons, List.mem_append] at hf ⊢; tauto)) hloop
      exact ⟨hdirection'.trans hdirection, hfound⟩

/-- `FindPrevUserEntry` finds the last entry that is shown in the part of the stream in front. -/
theorem findPrevUserEntry_spec (hsorted : SortedStream ucmp entries)
    (hentries : before.reverse ++ out = entries) (hiter : d.iter = .inFrontOf out before)
    (hdirection : d.direction = .reverse)
    (hpart : ∀ f ∈ before, Visible sequence f → part (extractUserKey f.key))
    (hout : ∀ f ∈ out, Visible sequence f → ¬ part (extractUserKey f.key)) :
    FoundPrev ucmp sequence entries part (d.findPrevUserEntry ucmp sequence) := by
  unfold DBIter.findPrevUserEntry
  rw [hiter]
  cases before with
  | nil =>
    refine .inl ⟨rfl, fun f hf => ?_⟩
    rw [← hentries] at hf
    exact hout f (by simpa using hf.mem) hf.visible
  | cons e before =>
    simp only [Cursor.inFrontOf]
    have hnothing : Kept ucmp sequence .deletion d [] := fun f hf => nomatch hf.mem
    have hentries' : before.reverse ++ e :: ([] ++ out) = entries := by simpa using hentries
    have hloop := prevLoop_spec hsorted hentries' hnothing (by simpa using hpart) hout rfl
    rw [List.nil_append] at hloop
    obtain ⟨hdirection', hfound⟩ := hloop
    generalize d.prevLoop ucmp sequence .deletion e out before = found at hdirection' hfound ⊢
    obtain ⟨type, d'⟩ := found
    cases type with
    | deletion => exact .inl ⟨rfl, hfound⟩
    | value => exact .inr ⟨rfl, hdirection'.trans hdirection, hfound⟩

end WiscKey
