import WiscKey.Version.Edit
import WiscKey.Core.DbFormat
import WiscKey.Library.Reader

/-!
# Decoding into a used edit

`DecodeFrom` clears the edit that it fills, but for its compaction pointers: an edit that had
some keeps them in front of those that are read. A field that is cut off is refused, whatever
was read before it.
-/

namespace WiscKey

namespace VersionEdit

section Readers

theorem selfDelimiting_getVarint64 : SelfDelimiting getVarint64 := fun _ _ _ hread more =>
  getVarint_append hread more

theorem selfDelimiting_slice : SelfDelimiting getLengthPrefixedSlice := fun _ _ _ hread more =>
  getLengthPrefixedSlice_append hread more

theorem selfDelimiting_getLevel : SelfDelimiting getLevel := by
  rintro input level rest hread more
  unfold getLevel at hread ⊢
  split at hread
  · rename_i v rest' hv
    rw [getVarint32, getVarint_append hv more]
    simp only
    split_ifs at hread ⊢
    cases hread
    rfl
  · cases hread

private theorem selfDelimiting_compactPointer (d : VersionEdit Bytes) :
    SelfDelimiting fun input => (getLevel input).bind fun l => (getInternalKey l.2).bind fun k =>
      some (d.setCompactPointer l.1 k.1, k.2) :=
  selfDelimiting_getLevel.bind fun level => selfDelimiting_slice.map (d.setCompactPointer level)

private theorem selfDelimiting_deletedFile (d : VersionEdit Bytes) :
    SelfDelimiting fun input => (getLevel input).bind fun l => (getVarint64 l.2).bind fun n =>
      some (d.deleteFile l.1 n.1, n.2) :=
  selfDelimiting_getLevel.bind fun level => selfDelimiting_getVarint64.map (d.deleteFile level)

private theorem selfDelimiting_newFile (d : VersionEdit Bytes) :
    SelfDelimiting fun input => (getLevel input).bind fun l => (getVarint64 l.2).bind fun n =>
      (getVarint64 n.2).bind fun z => (getInternalKey z.2).bind fun s =>
        (getInternalKey s.2).bind fun g => some (d.addFile l.1 ⟨n.1, z.1, s.1, g.1⟩, g.2) :=
  selfDelimiting_getLevel.bind fun level => selfDelimiting_getVarint64.bind fun number =>
    selfDelimiting_getVarint64.bind fun fileSize => selfDelimiting_slice.bind fun smallest =>
      selfDelimiting_slice.map fun largest =>
        d.addFile level ⟨number, fileSize, smallest, largest⟩

/-- The body of a field is read as far as it goes. -/
theorem decodeField_append {d d' : VersionEdit Bytes} {tag : Nat} {input rest : Bytes}
    (h : decodeField d tag input = .ok (d', rest)) (more : Bytes) :
    decodeField d tag (input ++ more) = .ok (d', rest ++ more) := by
  unfold decodeField at h ⊢
  split_ifs at h ⊢ <;> split at h <;> rename_i hread <;> cases h
  · rw [getLengthPrefixedSlice_append hread more]
  · rw [selfDelimiting_getVarint64 _ _ _ hread more]
  · rw [selfDelimiting_getVarint64 _ _ _ hread more]
  · rw [selfDelimiting_getVarint64 _ _ _ hread more]
  · rw [selfDelimiting_getVarint64 _ _ _ hread more]
  · have hgrow := (selfDelimiting_compactPointer d) input d' rest hread more
    split <;> rename_i hresult <;> cases hresult.symm.trans hgrow
    rfl
  · have hgrow := (selfDelimiting_deletedFile d) input d' rest hread more
    split <;> rename_i hresult <;> cases hresult.symm.trans hgrow
    rfl
  · have hgrow := (selfDelimiting_newFile d) input d' rest hread more
    split <;> rename_i hresult <;> cases hresult.symm.trans hgrow
    rfl

end Readers

section Truncated

/-- The encodings that `EncodeTo` puts one behind the other; what is not set has an empty one. -/
def fields (e : VersionEdit Bytes) : List Bytes :=
  [encodeComparator e.comparator, encodeNumber kLogNumber e.logNumber,
    encodeNumber kPrevLogNumber e.prevLogNumber, encodeNumber kNextFileNumber e.nextFileNumber,
    encodeNumber kLastSequence e.lastSequence] ++
    e.compactPointers.map encodeCompactPointer ++ e.deletedFiles.toList.map encodeDeletedFile ++
    e.newFiles.map encodeNewFile

/-- A proper prefix of the encoding that ends inside a field. -/
def EndsInside (e : VersionEdit Bytes) (part : Bytes) : Prop :=
  ∃ front field back cut, e.fields = front ++ field :: back ∧ 0 < cut ∧ cut < field.length ∧
    part = front.flatten ++ field.take cut

/-- Bytes that are one field to every edit. -/
def Readable (field : Bytes) : Prop :=
  ∀ d : VersionEdit Bytes, ∃ tag body d', getVarint32 field = some (tag, body) ∧
    decodeField d tag body = .ok (d', [])

theorem readable_of_tag {tag : Nat} {body : Bytes} (htag : tag < 2 ^ 32)
    (h : ∀ d : VersionEdit Bytes, ∃ d', decodeField d tag body = .ok (d', [])) :
    Readable (encodeVarint32 tag ++ body) := by
  intro d
  obtain ⟨d', hfield⟩ := h d
  exact ⟨tag, body, d', getVarint32_encodeVarint32 htag body, hfield⟩

theorem readable_number {tag : Nat} (htag : tag < 2 ^ 32)
    (h : ∀ (d : VersionEdit Bytes) n input rest, getVarint64 input = some (n, rest) →
      ∃ d', decodeField d tag input = .ok (d', rest))
    {number : Option Nat} (hnumber : ∀ n, number = some n → n < 2 ^ 64) :
    encodeNumber tag number = [] ∨ Readable (encodeNumber tag number) := by
  cases number with
  | none => exact .inl rfl
  | some n =>
    have hread := getVarint64_encodeVarint64 (hnumber n rfl) []
    rw [List.append_nil] at hread
    exact .inr (readable_of_tag htag fun d => h d n _ _ hread)

variable {e : VersionEdit Bytes}

/-- Every field of an edit in the ranges of the format is one to the decoder. -/
theorem Fits.readable (h : e.Fits) : ∀ field ∈ e.fields, field = [] ∨ Readable field := by
  have hslice : ∀ {s : Bytes}, s.length < 2 ^ 32 →
      getLengthPrefixedSlice (putLengthPrefixedSlice s) = some (s, []) := by
    intro s hs
    have hread := getLengthPrefixedSlice_put hs []
    rwa [List.append_nil] at hread
  intro field hfield
  simp only [fields, List.mem_append, List.mem_cons, List.not_mem_nil, or_false, List.mem_map]
    at hfield
  obtain (((rfl | rfl | rfl | rfl | rfl) | ⟨p, hp, rfl⟩) | ⟨p, hp, rfl⟩) | ⟨p, hp, rfl⟩ := hfield
  · cases hname : e.comparator with
    | none => exact .inl rfl
    | some name =>
      have hread := hslice (h.comparator name hname)
      exact .inr (readable_of_tag (by decide) fun d => by simp [decodeField, hread])
  · apply readable_number (by decide) _ h.logNumber
    intro d n input rest hread
    simp [decodeField, hread, kComparator, kLogNumber]
  · apply readable_number (by decide) _ h.prevLogNumber
    intro d n input rest hread
    simp [decodeField, hread, kComparator, kLogNumber, kPrevLogNumber]
  · apply readable_number (by decide) _ h.nextFileNumber
    intro d n input rest hread
    simp [decodeField, hread, kComparator, kLogNumber, kPrevLogNumber, kNextFileNumber]
  · apply readable_number (by decide) _ h.lastSequence
    intro d n input rest hread
    simp [decodeField, hread, kComparator, kLogNumber, kPrevLogNumber, kNextFileNumber,
      kLastSequence]
  · have hkey := hslice (h.compactPointers p hp)
    refine .inr (readable_of_tag (by decide) fun d => ?_)
    simp [decodeField, kComparator, kLogNumber, kPrevLogNumber, kNextFileNumber, kLastSequence,
      kCompactPointer, getLevel_encode, getInternalKey, hkey]
  · have hnumber := getVarint64_encodeVarint64 (h.deletedFiles p hp) []
    rw [List.append_nil] at hnumber
    refine .inr (readable_of_tag (by decide) fun d => ?_)
    simp [decodeField, kComparator, kLogNumber, kPrevLogNumber, kNextFileNumber, kLastSequence,
      kCompactPointer, kDeletedFile, getLevel_encode, hnumber]
  · obtain ⟨hnumber, hsize, hsmallest, hlargest⟩ := h.newFiles p hp
    refine .inr (readable_of_tag (by decide) fun d => ?_)
    simp [decodeField, kComparator, kLogNumber, kPrevLogNumber, kNextFileNumber, kLastSequence,
      kCompactPointer, kDeletedFile, kNewFile, getLevel_encode, getInternalKey,
      getVarint64_encodeVarint64 hnumber, getVarint64_encodeVarint64 hsize,
      getLengthPrefixedSlice_put hsmallest, hslice hlargest]

/-- Fields in front are taken off by the loop. -/
theorem decodeLoop_fields {front : List Bytes} (h : ∀ field ∈ front, field = [] ∨ Readable field)
    (d : VersionEdit Bytes) (rest : Bytes) :
    ∃ d', decodeLoop d (front.flatten ++ rest) = decodeLoop d' rest := by
  induction front generalizing d with
  | nil => exact ⟨d, rfl⟩
  | cons field front ih =>
    have hfront : ∀ field ∈ front, field = [] ∨ Readable field := fun f hf =>
      h f (List.mem_cons_of_mem _ hf)
    rw [List.flatten_cons, List.append_assoc]
    rcases h field List.mem_cons_self with rfl | hfield
    · exact ih hfront d
    · obtain ⟨tag, body, d₁, htag, hbody⟩ := hfield d
      obtain ⟨d', hd'⟩ := ih hfront d₁
      have hmore := decodeField_append hbody (front.flatten ++ rest)
      rw [List.nil_append] at hmore
      refine ⟨d', ?_⟩
      rw [decodeLoop_field (getVarint_append htag _) hmore, hd']

/-- A field that was cut off is an error. -/
theorem decodeLoop_truncated {field : Bytes} (h : Readable field) {cut : Nat} (hpos : 0 < cut)
    (hcut : cut < field.length) (d : VersionEdit Bytes) :
    (decodeLoop d (field.take cut)).2 ≠ none := by
  obtain ⟨tag, body, d', htag, hbody⟩ := h d
  have hsplit := List.take_append_drop cut field
  have hmore : field.drop cut ≠ [] := by
    rw [ne_eq, List.drop_eq_nil_iff]
    omega
  rw [decodeLoop]
  split
  · have hpart : field.take cut ≠ [] := by
      rw [ne_eq, List.take_eq_nil_iff]
      rintro (hzero | hnil)
      · omega
      · simp [hnil] at hcut
    simp [hpart]
  · rename_i tag' rest hread
    have hgrow := getVarint_append hread (field.drop cut)
    rw [hsplit] at hgrow
    obtain ⟨rfl, rfl⟩ := Prod.mk.inj (Option.some.inj (htag.symm.trans hgrow))
    split
    · simp
    · rename_i d₁ rest' hfield
      have hrest := decodeField_append hfield (field.drop cut)
      rw [hbody] at hrest
      have hnil := (Prod.mk.inj (Except.ok.inj hrest)).2
      exact absurd (List.append_eq_nil_iff.mp hnil.symm).2 hmore

/-- `DecodeFrom` refuses an encoding that ends inside a field. -/
theorem Fits.decodeFrom_endsInside (h : e.Fits) {part : Bytes} (hpart : e.EndsInside part)
    (d : VersionEdit Bytes) : (decodeFrom d part).2 ≠ .ok := by
  obtain ⟨front, field, back, cut, hfields, hpos, hcut, rfl⟩ := hpart
  have hreadable := h.readable
  rw [hfields] at hreadable
  obtain ⟨d', hd'⟩ := decodeLoop_fields (fun f hf => hreadable f (List.mem_append_left _ hf))
    d.clear (field.take cut)
  rcases hreadable field (List.mem_append_right _ List.mem_cons_self) with rfl | hfield
  · simp at hcut
  · have herror := decodeLoop_truncated hfield hpos hcut d'
    rw [decodeFrom, hd']
    split
    · rename_i hloop
      exact absurd (congrArg Prod.snd hloop) herror
    · simp

end Truncated

section Ranges

theorem getVarint64_lt {input rest : Bytes} {n : Nat} (h : getVarint64 input = some (n, rest)) :
    n < 2 ^ 64 :=
  getVarint_lt (by decide) h

theorem length_slice_lt {input s rest : Bytes}
    (h : getLengthPrefixedSlice input = some (s, rest)) : s.length < 2 ^ 32 := by
  unfold getLengthPrefixedSlice at h
  split at h
  · rename_i len rest' hlen
    split_ifs at h
    cases h
    exact (List.length_take_le ..).trans_lt (getVarint_lt (by decide) hlen)
  · cases h

variable {d d' : VersionEdit Bytes}

/-- What is read into an edit is in the ranges of the format. -/
theorem Fits.decodeField (h : d.Fits) {tag : Nat} {input rest : Bytes}
    (hfield : decodeField d tag input = .ok (d', rest)) : d'.Fits := by
  unfold VersionEdit.decodeField at hfield
  split_ifs at hfield <;> split at hfield <;> rename_i hread <;> cases hfield
  · exact { h with comparator := fun name hname => Option.some.inj hname ▸ length_slice_lt hread }
  · exact { h with logNumber := fun n hn => Option.some.inj hn ▸ getVarint64_lt hread }
  · exact { h with prevLogNumber := fun n hn => Option.some.inj hn ▸ getVarint64_lt hread }
  · exact { h with nextFileNumber := fun n hn => Option.some.inj hn ▸ getVarint64_lt hread }
  · exact { h with lastSequence := fun n hn => Option.some.inj hn ▸ getVarint64_lt hread }
  · simp only [bind, Option.bind_eq_some_iff, pure, Option.some.injEq, Prod.mk.injEq] at hread
    obtain ⟨⟨l, i₁⟩, -, ⟨k, i₂⟩, hk, rfl, -⟩ := hread
    refine { h with compactPointers := fun p hp => ?_ }
    rcases List.mem_append.mp hp with hp | hp
    · exact h.compactPointers p hp
    · obtain rfl := List.mem_singleton.mp hp
      exact length_slice_lt hk
  · simp only [bind, Option.bind_eq_some_iff, pure, Option.some.injEq, Prod.mk.injEq] at hread
    obtain ⟨⟨l, i₁⟩, -, ⟨n, i₂⟩, hn, rfl, -⟩ := hread
    refine { h with deletedFiles := fun p hp => ?_ }
    rcases mem_of_mem_insertOrdered hp with rfl | hp
    · exact getVarint64_lt hn
    · exact h.deletedFiles p hp
  · simp only [bind, Option.bind_eq_some_iff, pure, Option.some.injEq, Prod.mk.injEq] at hread
    obtain ⟨⟨l, i₁⟩, -, ⟨n, i₂⟩, hn, ⟨z, i₃⟩, hz, ⟨k, i₄⟩, hk, ⟨g, i₅⟩, hg, rfl, -⟩ := hread
    refine { h with newFiles := fun p hp => ?_ }
    rcases List.mem_append.mp hp with hp | hp
    · exact h.newFiles p hp
    · obtain rfl := List.mem_singleton.mp hp
      exact ⟨getVarint64_lt hn, getVarint64_lt hz, length_slice_lt hk, length_slice_lt hg⟩

theorem Fits.decodeLoop (h : d.Fits) (input : Bytes) : (decodeLoop d input).1.Fits := by
  induction d, input using decodeLoop.induct with
  | case1 d input htag =>
    unfold VersionEdit.decodeLoop
    split
    · exact h
    · rename_i hread
      rw [htag] at hread
      cases hread
  | case2 d input tag rest htag msg hfield =>
    unfold VersionEdit.decodeLoop
    split
    · exact h
    · rename_i hread
      rw [htag] at hread
      cases hread
      split
      · exact h
      · rename_i hok
        rw [hfield] at hok
        cases hok
  | case3 d input tag rest htag d' rest' hfield ih =>
    rw [decodeLoop_field htag hfield]
    exact ih (h.decodeField hfield)

/-- A cleared edit has nothing but its compaction pointers. -/
theorem fits_clear (h : ∀ p ∈ d.compactPointers, p.2.length < 2 ^ 32) : d.clear.Fits where
  comparator := nofun
  logNumber := nofun
  prevLogNumber := nofun
  nextFileNumber := nofun
  lastSequence := nofun
  compactPointers := h
  deletedFiles := nofun
  newFiles := nofun

theorem fits_decodeFrom (h : ∀ p ∈ d.compactPointers, p.2.length < 2 ^ 32) (src : Bytes) :
    (decodeFrom d src).1.Fits := by
  have hloop := (fits_clear h).decodeLoop src
  unfold decodeFrom
  split <;> rename_i hresult <;> rw [hresult] at hloop <;> exact hloop

end Ranges

section Reuse

variable {d e : VersionEdit Bytes}

/-- The round trip through the bytes of an edit: it is read back whole, and no part of its bytes
that ends inside a field is accepted. -/
def RoundTrips (d e : VersionEdit Bytes) : Prop :=
  decodeFrom d e.encodeTo = (e, .ok) ∧
    ∀ part, e.EndsInside part → (decodeFrom d part).2 ≠ .ok

/-- The round trip works for the edits in the ranges of the format, and only into an edit
without compaction pointers. -/
theorem roundTrips_iff (hd : ∀ p ∈ d.compactPointers, p.2.length < 2 ^ 32) :
    RoundTrips d e ↔ d.compactPointers = [] ∧ e.Fits := by
  constructor
  · rintro ⟨hback, -⟩
    have he : e.Fits := by
      have hfits := fits_decodeFrom hd e.encodeTo
      rwa [hback] at hfits
    rw [decodeFrom_encodeTo_used he d] at hback
    have hptrs := congrArg (fun r => r.1.compactPointers) hback
    exact ⟨List.append_left_eq_self.mp hptrs, he⟩
  · rintro ⟨hnil, he⟩
    refine ⟨?_, fun part hpart => he.decodeFrom_endsInside hpart d⟩
    rw [decodeFrom_encodeTo_used he d, hnil]
    rfl

/-- An edit with one compaction pointer. -/
def usedEdit : VersionEdit Bytes :=
  empty.setCompactPointer 1 (appendInternalKey ⟨[97], 1, .value⟩)

/-- An edit that was read before: it has a log number, and files that were added and deleted. -/
def readEdit : VersionEdit Bytes :=
  let key := appendInternalKey ⟨[98], 2, .value⟩
  (({ empty with logNumber := some 9 }).deleteFile 0 4).addFile 1 ⟨5, 300, key, key⟩

/-- The edit of a compaction: it has a pointer, deletes two files and adds one. -/
def compactionEdit : VersionEdit Bytes :=
  let smallest := appendInternalKey ⟨[97], 1, .value⟩
  let largest := appendInternalKey ⟨[122], 7, .deletion⟩
  let edit : VersionEdit Bytes :=
    { usedEdit with comparator := some [99], nextFileNumber := some 12, lastSequence := some 70 }
  ((edit.deleteFile 1 6).deleteFile 2 8).addFile 2 ⟨11, 4096, smallest, largest⟩

theorem fits_compactionEdit : compactionEdit.Fits where
  comparator := by
    rintro name ⟨⟩
    decide
  logNumber := nofun
  prevLogNumber := nofun
  nextFileNumber := by
    rintro n ⟨⟩
    decide
  lastSequence := by
    rintro n ⟨⟩
    decide
  compactPointers := by decide
  deletedFiles := by decide
  newFiles := by decide

/-- The edit of a compaction is read into an edit that was used. -/
theorem roundTrips_readEdit : RoundTrips readEdit compactionEdit :=
  (roundTrips_iff (d := readEdit) (e := compactionEdit) nofun).mpr ⟨rfl, fits_compactionEdit⟩

/-- The pointer of the edit that was there is kept. -/
theorem not_roundTrips_usedEdit : ¬ RoundTrips usedEdit empty := by
  rintro ⟨hback, -⟩
  have hfits : (empty : VersionEdit Bytes).Fits := fits_clear (d := empty) nofun
  rw [decodeFrom_encodeTo_used hfits] at hback
  cases congrArg (fun r => r.1.compactPointers) hback

end Reuse

end VersionEdit

end WiscKey
