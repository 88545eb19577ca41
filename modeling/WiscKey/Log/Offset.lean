import WiscKey.Log.RoundTrip

/-!
# Reading a log from an offset

The reader goes to the block of the offset, passes over the physical records that start too
early, and then takes the records that start behind them. It is meant to pass over the rest of
a record that it meets in the middle, but a physical record that starts too early ends that
mode: where such a one begins a record that goes on in the next block, the rest is reported.
-/

namespace WiscKey.Log

/-- A record in a log, with the offset of its first header and the one behind its last byte. -/
structure Entry where
  record : Bytes
  start : Nat
  stop : Nat

/-- The records that a writer adds. -/
def entries (w : Writer) : List Bytes → List Entry
  | [] => []
  | record :: records =>
    ⟨record, w.switchBlock.dest.length, (w.addRecord record).dest.length⟩ ::
      entries (w.addRecord record) records

/-- The records that start at an offset or behind it, with their offsets. -/
def recordsFrom (offset : Nat) (es : List Entry) : List (Bytes × Nat) :=
  (es.filter fun e => offset ≤ e.start).map fun e => (e.record, e.start)

/-- The record starts before the offset and goes on behind the block of the offset. -/
def Entry.CutBy (e : Entry) (offset : Nat) : Prop :=
  e.start < offset ∧ (offset / kBlockSize + 1) * kBlockSize < e.stop

namespace Reader

/-- Calls of `ReadRecord` up to the one that returns false, each with `LastRecordOffset` behind
it, and the reader then. -/
def readAllAt (r : Reader) : List (Bytes × Nat) × Reader :=
  match _h : r.readRecord with
  | (none, r') => ([], r')
  | (some record, r') => ((record, r'.lastRecordOffset) :: r'.readAllAt.1, r'.readAllAt.2)
termination_by r.remaining
decreasing_by all_goals exact remaining_readRecord_lt _h

/-- The same from the middle of a call. -/
def loopAll (r : Reader) (p : Partial) : List (Bytes × Nat) × Reader :=
  match r.readRecordLoop p with
  | (none, r') => ([], r')
  | (some record, r') => ((record, r'.lastRecordOffset) :: r'.readAllAt.1, r'.readAllAt.2)

theorem readAllAt_eq (r : Reader) : r.readAllAt =
    (if r.lastRecordOffset < r.initialOffset then r.skipToInitialBlock else r).loopAll
      ⟨[], [], false, 0⟩ := by
  rw [readAllAt]
  unfold loopAll
  split
  · rename_i h
    unfold readRecord at h
    simp only at h
    rw [h]
  · rename_i h
    unfold readRecord at h
    simp only at h
    rw [h]

theorem loopAll_congr {r r' : Reader} {p p' : Partial}
    (h : r.readRecordLoop p = r'.readRecordLoop p') : r.loopAll p = r'.loopAll p' := by
  unfold loopAll
  rw [h]

section Dispatch

variable {r : Reader} {p : Partial}

/-- `physical_record_offset`. -/
def physicalRecordOffset (r : Reader) (n : Nat) : Nat :=
  sub64 (sub64 (sub64 r.endOfBufferOffset r.buffer.length) kHeaderSize) n

theorem dispatch_bad (hp : p.inFragmentedRecord = false) :
    r.dispatch p kBadRecord = .continues { r with resyncing := false } p := by
  obtain ⟨fragment, scratch, inFragmentedRecord, offset⟩ := p
  cases hp
  cases h : r.resyncing <;>
    simp [dispatch, h, switchType, kBadRecord, kFullType, kFirstType, kMiddleType, kLastType]

theorem dispatch_skip_middle (hr : r.resyncing = true) :
    r.dispatch p (Writer.fragmentType false false) = .continues r p := by
  simp [dispatch, hr, Writer.fragmentType]

theorem dispatch_skip_last (hr : r.resyncing = true) :
    r.dispatch p (Writer.fragmentType false true) = .continues { r with resyncing := false } p := by
  simp [dispatch, hr, Writer.fragmentType, kLastType, kMiddleType]

/-- A fragment without the ones before it is reported. -/
theorem dispatch_stray (end_ : Bool) (hr : r.resyncing = false)
    (hp : p.inFragmentedRecord = false) : ∃ reason,
    r.dispatch p (Writer.fragmentType false end_) =
      .continues (r.reportDrop p.fragment.length reason) p := by
  have hkeep : ({ r with resyncing := false } : Reader) = r := by rw [← hr]
  cases end_ with
  | false =>
    refine ⟨"missing start of fragmented record(1)", ?_⟩
    simp [dispatch, hr, hp, hkeep, switchType, Writer.fragmentType, kFullType, kFirstType,
      kMiddleType]
  | true =>
    refine ⟨"missing start of fragmented record(2)", ?_⟩
    simp [dispatch, hr, hp, hkeep, switchType, Writer.fragmentType, kFullType, kFirstType,
      kMiddleType, kLastType]

theorem dispatch_full (hp : p.inFragmentedRecord = false) :
    r.dispatch p (Writer.fragmentType true true) = .returns p.fragment
      { r with
        resyncing := false
        lastRecordOffset := r.physicalRecordOffset p.fragment.length } := by
  cases h : r.resyncing <;>
    simp [dispatch, h, hp, switchType, beginFragment, Writer.fragmentType, physicalRecordOffset,
      kFullType, kMiddleType, kLastType]

theorem dispatch_first (hp : p.inFragmentedRecord = false) :
    r.dispatch p (Writer.fragmentType true false) = .continues { r with resyncing := false }
      ⟨p.fragment, p.fragment, true, r.physicalRecordOffset p.fragment.length⟩ := by
  cases h : r.resyncing <;>
    simp [dispatch, h, hp, switchType, beginFragment, Writer.fragmentType, physicalRecordOffset,
      kFullType, kFirstType, kMiddleType, kLastType]

theorem dispatch_middle (hr : r.resyncing = false) (hp : p.inFragmentedRecord = true) :
    r.dispatch p (Writer.fragmentType false false) =
      .continues r { p with scratch := p.scratch ++ p.fragment } := by
  have hkeep : ({ r with resyncing := false } : Reader) = r := by rw [← hr]
  simp [dispatch, hr, hp, hkeep, switchType, Writer.fragmentType, kFullType, kFirstType,
    kMiddleType]

theorem dispatch_last (hr : r.resyncing = false) (hp : p.inFragmentedRecord = true) :
    r.dispatch p (Writer.fragmentType false true) = .returns (p.scratch ++ p.fragment)
      { r with lastRecordOffset := p.prospectiveRecordOffset } := by
  simp [dispatch, hr, hp, switchType, Writer.fragmentType, kFullType, kFirstType, kMiddleType,
    kLastType]

end Dispatch

/-- The reader was asked for an offset and is at `cur`. -/
structure From (r : Reader) (file : Bytes) (offset cur : Nat) : Prop extends Loaded r file cur where
  initialOffset : r.initialOffset = offset
  position : r.endOfBufferOffset = r.filePos

section Physical

variable {r : Reader} {file : Bytes} {offset cur : Nat}

theorem sub64_of_le {a b : Nat} (ha : a < 2 ^ 63) (hb : b ≤ a) : sub64 a b = a - b := by
  unfold sub64
  omega

theorem From.follow {r' : Reader} {cur' : Nat} (h : r.From file offset cur)
    (hfollows : r.Follows r') (hloaded : r'.Loaded file cur') : r'.From file offset cur' where
  toLoaded := hloaded
  initialOffset := hfollows.initialOffset.trans h.initialOffset
  position := by
    have hposition := hfollows.position
    have hold := h.position
    omega

/-- Where the reader is, computed as its code does it. -/
theorem From.position_eq (h : r.From file offset cur) (hfile : file.length < 2 ^ 63) :
    sub64 r.endOfBufferOffset r.buffer.length = cur := by
  have hlen := h.length_buffer
  have hcur := h.cur_le
  have hpos := h.filePos_le
  have hend := h.position
  rw [sub64_of_le (by omega) (by omega)]
  omega

/-- The offset of the last header, from the length of its fragment. -/
theorem From.physicalRecordOffset_eq (h : r.From file offset cur) (hfile : file.length < 2 ^ 63)
    {start n : Nat} (hcur : cur = start + kHeaderSize + n) : r.physicalRecordOffset n = start := by
  have hle := h.cur_le.trans h.filePos_le
  have hheader : sub64 cur kHeaderSize = cur - kHeaderSize := sub64_of_le (by omega) (by omega)
  rw [physicalRecordOffset, h.position_eq hfile, hheader, sub64_of_le (by omega) (by omega)]
  omega

/-- Where a fragment begins and ends, and how much of a block it can fill. -/
theorem length_addFragment {w : Writer} (hw : w.Aligned) (begin_ : Bool) (data : Bytes) :
    (w.addFragment begin_ data).dest.length =
        w.switchBlock.dest.length + kHeaderSize + w.fragmentLength data.length ∧
      w.switchBlock.dest.length % kBlockSize + kHeaderSize + w.fragmentLength data.length ≤
        kBlockSize ∧
      (w.fragmentLength data.length < data.length →
        w.switchBlock.dest.length % kBlockSize + kHeaderSize + w.fragmentLength data.length =
          kBlockSize) := by
  have hfits := Writer.fragmentLength_fits hw data.length
  have hmod := hw.switchBlock.1.offset_mod
  have hblock : w.switchBlock.dest.length % kBlockSize = w.switchBlock.blockOffset := by
    rw [hmod]
    exact Nat.mod_eq_of_lt (by simp only [kBlockSize, kHeaderSize] at *; omega)
  rw [hblock]
  refine ⟨?_, hfits, fun hlt => ?_⟩
  · rw [Writer.dest_addFragment, List.length_append, Writer.length_physicalRecord, List.length_take,
      Nat.min_eq_left (w.fragmentLength_le _), Nat.add_assoc]
  · unfold Writer.fragmentLength at hlt hfits ⊢
    simp only [kBlockSize, kHeaderSize] at *
    omega

/-- One physical record of the writer, read by a reader at the writer's last position: it comes
back unless it starts too early. -/
theorem From.readPhysicalRecord {w : Writer} {data : Bytes} (begin_ : Bool) (result : Bytes)
    (hw : w.Aligned) (h : r.From file offset w.dest.length) (hfile : file.length < 2 ^ 63)
    (hpre : (w.addFragment begin_ data).dest <+: file) :
    ∃ r' : Reader, r.Follows r' ∧ r'.From file offset (w.addFragment begin_ data).dest.length ∧
      r'.physicalRecordOffset (w.fragmentLength data.length) = w.switchBlock.dest.length ∧
      r.readPhysicalRecord result =
        if w.switchBlock.dest.length < offset then (kBadRecord, [], r')
        else (Writer.fragmentType begin_ (data.length == w.fragmentLength data.length),
          data.take (w.fragmentLength data.length), r') := by
  obtain ⟨r', hfollows, hloaded, hread⟩ := h.toLoaded.readPhysicalRecord begin_ result hw hpre
  have hfrom := h.follow hfollows hloaded
  have hstart := hfrom.physicalRecordOffset_eq hfile (length_addFragment hw begin_ data).1
  refine ⟨r', hfollows, hfrom, hstart, ?_⟩
  unfold physicalRecordOffset at hstart
  rw [hread, hstart, h.initialOffset]

/-- The same where it does not start too early. -/
theorem From.readPhysicalRecord_of_le {w : Writer} {data : Bytes} (begin_ : Bool)
    (result : Bytes) (hw : w.Aligned) (h : r.From file offset w.dest.length)
    (hfile : file.length < 2 ^ 63)
    (hpre : (w.addFragment begin_ data).dest <+: file)
    (hstart : offset ≤ w.switchBlock.dest.length) :
    ∃ r' : Reader, r.Follows r' ∧ r'.From file offset (w.addFragment begin_ data).dest.length ∧
      r'.physicalRecordOffset (data.take (w.fragmentLength data.length)).length =
        w.switchBlock.dest.length ∧
      r.readPhysicalRecord result =
        (Writer.fragmentType begin_ (data.length == w.fragmentLength data.length),
          data.take (w.fragmentLength data.length), r') := by
  obtain ⟨r', hfollows, hfrom, hoffset, hread⟩ :=
    h.readPhysicalRecord begin_ result hw hfile hpre
  rw [if_neg (Nat.not_lt.mpr hstart)] at hread
  refine ⟨r', hfollows, hfrom, ?_, hread⟩
  rwa [List.length_take, Nat.min_eq_left (w.fragmentLength_le _)]

end Physical

section Fragments

variable {r : Reader} {file : Bytes} {offset : Nat}

/-- A record goes on behind a fragment, at the beginning of a block, or ends with it. -/
theorem addFragments_cases {w : Writer} (hw : w.Aligned) (begin_ : Bool) (data : Bytes) :
    (∃ rest, w.addFragments begin_ data = (w.addFragment begin_ data).addFragments false rest ∧
      data.take (w.fragmentLength data.length) ++ rest = data ∧
      (data.length == w.fragmentLength data.length) = false ∧
      (w.addFragment begin_ data).dest.length =
        (w.switchBlock.dest.length / kBlockSize + 1) * kBlockSize) ∨
    (w.addFragments begin_ data = w.addFragment begin_ data ∧
      data.take (w.fragmentLength data.length) = data ∧
      (data.length == w.fragmentLength data.length) = true ∧
      (w.addFragment begin_ data).dest.length ≤
        (w.switchBlock.dest.length / kBlockSize + 1) * kBlockSize) := by
  obtain ⟨hlen, hfits, hfull⟩ := length_addFragment hw begin_ data
  have hle := w.fragmentLength_le data.length
  rcases Nat.lt_or_ge (w.fragmentLength data.length) data.length with hlt | hge
  · refine .inl ⟨data.drop (w.fragmentLength data.length), ?_, List.take_append_drop _ _, ?_, ?_⟩
    · rw [Writer.addFragments, if_pos (by rw [List.length_drop]; omega)]
    · simp only [beq_eq_false_iff_ne]
      omega
    · have hend := hfull hlt
      simp only [kBlockSize] at *
      omega
  · refine .inr ⟨?_, List.take_of_length_le hge, ?_, ?_⟩
    · rw [Writer.addFragments, if_neg (by rw [List.length_drop]; omega)]
    · simp only [beq_iff_eq]
      omega
    · simp only [kBlockSize] at *
      omega

/-- Induction over the fragments of a record behind its first one. -/
theorem rest_induction {P : Writer → Bytes → Prop}
    (more : ∀ w data rest,
      w.addFragments false data = (w.addFragment false data).addFragments false rest →
      data.take (w.fragmentLength data.length) ++ rest = data →
      (data.length == w.fragmentLength data.length) = false →
      P (w.addFragment false data) rest → P w data)
    (last : ∀ w data, w.addFragments false data = w.addFragment false data →
      data.take (w.fragmentLength data.length) = data →
      (data.length == w.fragmentLength data.length) = true → P w data)
    (w : Writer) (data : Bytes) : P w data := by
  generalize hbegin : false = begin_
  induction w, begin_, data using Writer.addFragments.induct with
  | case1 w begin_ data w' rest hrest ih =>
    subst hbegin
    refine more w data rest ?_ (List.take_append_drop _ _) ?_ (ih rfl)
    · rw [Writer.addFragments, if_pos hrest]
    · simp only [rest, List.length_drop] at hrest
      simp only [beq_eq_false_iff_ne]
      omega
  | case2 w begin_ data rest hrest =>
    subst hbegin
    have hle := w.fragmentLength_le data.length
    have hend : data.length = w.fragmentLength data.length := by
      simp only [rest, List.length_drop] at hrest
      omega
    refine last w data ?_ (List.take_of_length_le hend.le) (beq_iff_eq.mpr hend)
    rw [Writer.addFragments, if_neg hrest]

theorem length_le_switchBlock {w : Writer} : w.dest.length ≤ w.switchBlock.dest.length :=
  w.prefix_switchBlock.length_le

theorem length_le_addFragment {w : Writer} {begin_ : Bool} {data : Bytes} :
    w.dest.length ≤ (w.addFragment begin_ data).dest.length :=
  (w.prefix_addFragment begin_ data).length_le

/-- The rest of a record whose first fragment has been read. -/
theorem From.readRest {w : Writer} {data : Bytes} {p : Partial} (hw : w.Aligned)
    (h : r.From file offset w.dest.length) (hfile : file.length < 2 ^ 63)
    (hr : r.resyncing = false) (hp : p.inFragmentedRecord = true) (hoffset : offset ≤ w.dest.length)
    (hpre : (w.addFragments false data).dest <+: file) :
    ∃ r' : Reader, r'.From file offset (w.addFragments false data).dest.length ∧
      r'.reports = r.reports ∧ r'.lastRecordOffset = p.prospectiveRecordOffset ∧
      r.readRecordLoop p = (some (p.scratch ++ data), r') := by
  induction w, data using rest_induction generalizing r p with
  | more w data rest heq hdata hend ih =>
    rw [heq] at hpre ⊢
    obtain ⟨r₁, hfollows, hfrom, -, hread⟩ := h.readPhysicalRecord_of_le false
      p.fragment hw hfile ((Writer.prefix_addFragments _ _ _).trans hpre)
      (hoffset.trans length_le_switchBlock)
    rw [hend] at hread
    obtain ⟨p₁, hdispatch, hp₁, hscratch, hoffset₁⟩ : ∃ p₁ : Partial,
        r₁.dispatch { p with fragment := data.take (w.fragmentLength data.length) }
          (Writer.fragmentType false false) = .continues r₁ p₁ ∧ p₁.inFragmentedRecord = true ∧
        p₁.scratch = p.scratch ++ data.take (w.fragmentLength data.length) ∧
        p₁.prospectiveRecordOffset = p.prospectiveRecordOffset :=
      ⟨_, dispatch_middle (hfollows.resyncing.trans hr) hp, hp, rfl, rfl⟩
    obtain ⟨r', hfrom', hreports, hlast, hloop⟩ := ih (hw.addFragment _ _) hfrom
      (hfollows.resyncing.trans hr) hp₁ (hoffset.trans length_le_addFragment) hpre
    refine ⟨r', hfrom', hreports.trans hfollows.reports, hlast.trans hoffset₁, ?_⟩
    rw [readRecordLoop_continues hread (fragmentType_ne_kEof _ _) hdispatch, hloop, hscratch,
      List.append_assoc, hdata]
  | last w data heq hdata hend =>
    rw [heq] at hpre ⊢
    obtain ⟨r₁, hfollows, hfrom, -, hread⟩ := h.readPhysicalRecord_of_le false
      p.fragment hw hfile hpre (hoffset.trans length_le_switchBlock)
    rw [hend, hdata] at hread
    have hdispatch := dispatch_last (r := r₁) (p := { p with fragment := data })
      (hfollows.resyncing.trans hr) hp
    exact ⟨{ r₁ with lastRecordOffset := p.prospectiveRecordOffset }, { hfrom with },
      hfollows.reports, rfl, readRecordLoop_returns hread (fragmentType_ne_kEof _ _) hdispatch⟩

/-- A record that starts at the offset or behind it. -/
theorem From.readRecordLoop {w : Writer} {data : Bytes} {p : Partial} (hw : w.Aligned)
    (h : r.From file offset w.dest.length) (hfile : file.length < 2 ^ 63)
    (hp : p.inFragmentedRecord = false) (hoffset : offset ≤ w.switchBlock.dest.length)
    (hpre : (w.addRecord data).dest <+: file) :
    ∃ r' : Reader, r'.From file offset (w.addRecord data).dest.length ∧
      r'.reports = r.reports ∧ r'.lastRecordOffset = w.switchBlock.dest.length ∧
      r.readRecordLoop p = (some data, r') := by
  unfold Writer.addRecord at hpre ⊢
  rcases addFragments_cases hw true data with ⟨rest, heq, hdata, hend, -⟩ | ⟨heq, hdata, hend, -⟩
  · rw [heq] at hpre ⊢
    obtain ⟨r₁, hfollows, hfrom, hstart, hread⟩ := h.readPhysicalRecord_of_le true
      p.fragment hw hfile ((Writer.prefix_addFragments _ _ _).trans hpre) hoffset
    rw [hend] at hread
    have hdispatch := dispatch_first (r := r₁)
      (p := { p with fragment := data.take (w.fragmentLength data.length) }) hp
    have hfrom₁ : ({ r₁ with resyncing := false } : Reader).From file offset
        (w.addFragment true data).dest.length := { hfrom with }
    obtain ⟨r', hfrom', hreports, hlast, hloop⟩ := hfrom₁.readRest
      (p := ⟨data.take (w.fragmentLength data.length), data.take (w.fragmentLength data.length),
        true, w.switchBlock.dest.length⟩) (hw.addFragment _ _) hfile rfl rfl
      (hoffset.trans (by rw [(length_addFragment hw true data).1]; omega)) hpre
    refine ⟨r', hfrom', hreports.trans hfollows.reports, hlast, ?_⟩
    rw [readRecordLoop_continues hread (fragmentType_ne_kEof _ _) hdispatch]
    simp only [hstart, hloop, hdata]
  · rw [heq] at hpre ⊢
    obtain ⟨r₁, hfollows, hfrom, hstart, hread⟩ := h.readPhysicalRecord_of_le true
      p.fragment hw hfile hpre hoffset
    rw [hend, hdata] at hread
    rw [hdata] at hstart
    have hdispatch := dispatch_full (r := r₁) (p := { p with fragment := data }) hp
    exact ⟨{ r₁ with resyncing := false, lastRecordOffset := r₁.physicalRecordOffset data.length },
      { hfrom with }, hfollows.reports, hstart,
      readRecordLoop_returns hread (fragmentType_ne_kEof _ _) hdispatch⟩

/-- The rest of a record that is passed over. -/
theorem From.skipRest {w : Writer} {data : Bytes} {p : Partial} (hw : w.Aligned)
    (h : r.From file offset w.dest.length) (hfile : file.length < 2 ^ 63)
    (hr : r.resyncing = true) (hp : p.inFragmentedRecord = false) (hoffset : offset ≤ w.dest.length)
    (hpre : (w.addFragments false data).dest <+: file) :
    ∃ (r' : Reader) (p' : Partial), r'.From file offset (w.addFragments false data).dest.length ∧
      r'.reports = r.reports ∧ p'.inFragmentedRecord = false ∧
      r.readRecordLoop p = r'.readRecordLoop p' := by
  induction w, data using rest_induction generalizing r p with
  | more w data rest heq hdata hend ih =>
    rw [heq] at hpre ⊢
    obtain ⟨r₁, hfollows, hfrom, -, hread⟩ := h.readPhysicalRecord_of_le false
      p.fragment hw hfile ((Writer.prefix_addFragments _ _ _).trans hpre)
      (hoffset.trans length_le_switchBlock)
    rw [hend] at hread
    have hr₁ := hfollows.resyncing.trans hr
    obtain ⟨r', p', hfrom', hreports, hp', hloop⟩ := ih
      (p := { p with fragment := data.take (w.fragmentLength data.length) })
      (hw.addFragment _ _) hfrom hr₁ hp (hoffset.trans length_le_addFragment) hpre
    refine ⟨r', p', hfrom', hreports.trans hfollows.reports, hp', ?_⟩
    rw [readRecordLoop_continues hread (fragmentType_ne_kEof _ _) (dispatch_skip_middle hr₁), hloop]
  | last w data heq hdata hend =>
    rw [heq] at hpre ⊢
    obtain ⟨r₁, hfollows, hfrom, -, hread⟩ := h.readPhysicalRecord_of_le false
      p.fragment hw hfile hpre (hoffset.trans length_le_switchBlock)
    rw [hend] at hread
    have hdispatch := dispatch_skip_last (r := r₁)
      (p := { p with fragment := data.take (w.fragmentLength data.length) })
      (hfollows.resyncing.trans hr)
    exact ⟨{ r₁ with resyncing := false },
      { p with fragment := data.take (w.fragmentLength data.length) }, { hfrom with },
      hfollows.reports, hp, readRecordLoop_continues hread (fragmentType_ne_kEof _ _) hdispatch⟩

/-- A report of a fragment that does not start too early is made. -/
theorem From.reportDrop {n cur : Nat} (h : r.From file offset cur) (hfile : file.length < 2 ^ 63)
    (hn : offset + n ≤ cur) (reason : String) :
    (r.reportDrop n reason).From file offset cur ∧ (r.reportDrop n reason).reports ≠ [] ∧
      (r.reportDrop n reason).resyncing = r.resyncing := by
  have hle := h.cur_le.trans h.filePos_le
  have hmade : r.reportDrop n reason = { r with reports := r.reports ++ [⟨n, reason⟩] } := by
    unfold Reader.reportDrop
    rw [h.position_eq hfile, sub64_of_le (by omega) (by omega), h.initialOffset, if_pos (by omega)]
  rw [hmade]
  exact ⟨{ h with }, by simp, rfl⟩

/-- The rest of a record that is reported. -/
theorem From.strayRest {w : Writer} {data : Bytes} {p : Partial} (hw : w.Aligned)
    (h : r.From file offset w.dest.length) (hfile : file.length < 2 ^ 63)
    (hr : r.resyncing = false) (hp : p.inFragmentedRecord = false)
    (hoffset : offset ≤ w.dest.length) (hpre : (w.addFragments false data).dest <+: file) :
    ∃ (r' : Reader) (p' : Partial), r'.From file offset (w.addFragments false data).dest.length ∧
      r'.reports ≠ [] ∧ p'.inFragmentedRecord = false ∧
      r.readRecordLoop p = r'.readRecordLoop p' := by
  induction w, data using rest_induction generalizing r p with
  | more w data rest heq hdata hend ih =>
    rw [heq] at hpre ⊢
    obtain ⟨r₁, hfollows, hfrom, -, hread⟩ := h.readPhysicalRecord_of_le false
      p.fragment hw hfile ((Writer.prefix_addFragments _ _ _).trans hpre)
      (hoffset.trans length_le_switchBlock)
    rw [hend] at hread
    have hr₁ := hfollows.resyncing.trans hr
    obtain ⟨reason, hdispatch⟩ := dispatch_stray (r := r₁)
      (p := { p with fragment := data.take (w.fragmentLength data.length) }) false hr₁ hp
    obtain ⟨hfrom₂, -, hr₂⟩ := hfrom.reportDrop hfile
      (n := (data.take (w.fragmentLength data.length)).length) (by
        have hlen := (length_addFragment hw false data).1
        have hgrow : w.dest.length ≤ w.switchBlock.dest.length := length_le_switchBlock
        rw [List.length_take, Nat.min_eq_left (w.fragmentLength_le _)]
        omega) reason
    obtain ⟨r', p', hfrom', hreports, hp', hloop⟩ := ih
      (p := { p with fragment := data.take (w.fragmentLength data.length) })
      (hw.addFragment _ _) hfrom₂ (hr₂.trans hr₁) hp (hoffset.trans length_le_addFragment) hpre
    refine ⟨r', p', hfrom', hreports, hp', ?_⟩
    rw [readRecordLoop_continues hread (fragmentType_ne_kEof _ _) hdispatch, hloop]
  | last w data heq hdata hend =>
    rw [heq] at hpre ⊢
    obtain ⟨r₁, hfollows, hfrom, -, hread⟩ := h.readPhysicalRecord_of_le false
      p.fragment hw hfile hpre (hoffset.trans length_le_switchBlock)
    rw [hend, hdata] at hread
    obtain ⟨reason, hdispatch⟩ := dispatch_stray (r := r₁) (p := { p with fragment := data }) true
      (hfollows.resyncing.trans hr) hp
    obtain ⟨hfrom₂, hreports, -⟩ := hfrom.reportDrop hfile (n := data.length) (by
        have hlen := (length_addFragment hw false data).1
        have hgrow : w.dest.length ≤ w.switchBlock.dest.length := length_le_switchBlock
        rw [beq_iff_eq] at hend
        omega) reason
    exact ⟨_, { p with fragment := data }, hfrom₂, hreports, hp,
      readRecordLoop_continues hread (fragmentType_ne_kEof _ _) hdispatch⟩

end Fragments

section Entries

variable {w : Writer} {records : List Bytes} {offset : Nat}

theorem switchBlock_le_addFragment (begin_ : Bool) (data : Bytes) :
    w.switchBlock.dest.length ≤ (w.addFragment begin_ data).dest.length := by
  rw [Writer.dest_addFragment, List.length_append]
  exact Nat.le_add_right _ _

theorem switchBlock_le_addFragments (begin_ : Bool) (data : Bytes) :
    w.switchBlock.dest.length ≤ (w.addFragments begin_ data).dest.length := by
  rw [Writer.addFragments]
  split
  · exact (switchBlock_le_addFragment begin_ data).trans (Writer.prefix_addFragments _ _ _).length_le
  · exact switchBlock_le_addFragment begin_ data

/-- A header is behind where the writer was. -/
theorem length_lt_addFragments (hw : w.Aligned) (begin_ : Bool) (data : Bytes) :
    w.dest.length < (w.addFragments begin_ data).dest.length := by
  have hlen := (length_addFragment hw begin_ data).1
  have hgrow : w.dest.length ≤ w.switchBlock.dest.length := length_le_switchBlock
  have hstop : (w.addFragment begin_ data).dest.length ≤
      (w.addFragments begin_ data).dest.length := by
    rw [Writer.addFragments]
    split
    · exact (Writer.prefix_addFragments _ _ _).length_le
    · exact le_rfl
  simp only [kHeaderSize] at hlen
  omega

/-- The records of a writer start where its next header goes, or behind it. -/
theorem le_start_of_mem_entries {e : Entry} (h : e ∈ entries w records) :
    w.switchBlock.dest.length ≤ e.start := by
  induction records generalizing w with
  | nil => cases h
  | cons record records ih =>
    rcases List.mem_cons.mp h with rfl | htail
    · exact le_rfl
    · exact (switchBlock_le_addFragments true record).trans (length_le_switchBlock.trans (ih htail))

theorem not_cutBy_of_le (hoffset : offset ≤ w.switchBlock.dest.length) {e : Entry}
    (h : e ∈ entries w records) : ¬ e.CutBy offset := by
  have hle := le_start_of_mem_entries h
  rintro ⟨hlt, -⟩
  omega

theorem recordsFrom_cons_of_le {e : Entry} {es : List Entry} (h : offset ≤ e.start) :
    recordsFrom offset (e :: es) = (e.record, e.start) :: recordsFrom offset es := by
  rw [recordsFrom, List.filter_cons_of_pos (by simpa using h), List.map_cons]
  rfl

theorem recordsFrom_cons_of_lt {e : Entry} {es : List Entry} (h : e.start < offset) :
    recordsFrom offset (e :: es) = recordsFrom offset es := by
  rw [recordsFrom, List.filter_cons_of_neg (by simpa using h)]
  rfl

end Entries

/-- What the reader returns from here, and whether its reports are none then. -/
structure Delivers (r : Reader) (p : Partial) (expected : List (Bytes × Nat)) (quiet : Prop) :
    Prop where
  records : (r.loopAll p).1 = expected
  reports : (r.loopAll p).2.reports = [] ↔ quiet

section Phases

variable {r : Reader} {file : Bytes} {offset cur : Nat} {w : Writer} {p : Partial}

theorem Delivers.of_loop {r' : Reader} {p' : Partial} {expected : List (Bytes × Nat)}
    {quiet : Prop} (h : r'.Delivers p' expected quiet)
    (hloop : r.readRecordLoop p = r'.readRecordLoop p') : r.Delivers p expected quiet := by
  have heq := loopAll_congr hloop
  exact ⟨heq ▸ h.records, heq ▸ h.reports⟩

theorem Delivers.congr {expected expected' : List (Bytes × Nat)} {quiet quiet' : Prop}
    (h : r.Delivers p expected quiet) (hexpected : expected = expected')
    (hquiet : quiet ↔ quiet') : r.Delivers p expected' quiet' :=
  ⟨h.records.trans hexpected, h.reports.trans hquiet⟩

/-- A reader behind the last byte. -/
theorem delivers_end (hbuffer : r.buffer = []) (hend : r.contents.length ≤ r.filePos) :
    r.Delivers p [] (r.reports = []) := by
  obtain ⟨r', hreports, hread⟩ := readPhysicalRecord_end hbuffer hend p.fragment
  have hloop := readRecordLoop_eof hread
  constructor
  · unfold loopAll
    rw [hloop]
  · unfold loopAll
    rw [hloop, ← hreports]

theorem From.delivers_end (h : r.From file offset file.length) :
    r.Delivers p [] (r.reports = []) := by
  obtain ⟨hbuffer, hend⟩ := h.buffer_end
  exact Reader.delivers_end hbuffer hend

/-- The records behind the offset. -/
theorem From.delivers_all {records : List Bytes} (hw : w.Aligned)
    (h : r.From file offset w.dest.length) (hfile : file.length < 2 ^ 63)
    (hp : p.inFragmentedRecord = false) (hoffset : offset ≤ w.switchBlock.dest.length)
    (hwritten : (records.foldl Writer.addRecord w).dest = file) :
    r.Delivers p (recordsFrom offset (entries w records)) (r.reports = []) := by
  induction records generalizing r w p with
  | nil =>
    obtain rfl := hwritten
    exact h.delivers_end
  | cons record records ih =>
    have hpre : (w.addRecord record).dest <+: file := by
      rw [← hwritten]
      exact (w.addRecord record).prefix_addRecords records
    obtain ⟨r', hfrom, hreports, hlast, hloop⟩ := h.readRecordLoop hw hfile hp hoffset hpre
    have hnext := ih (p := ⟨[], [], false, 0⟩) (hw.addRecord record) hfrom rfl
      (hoffset.trans ((switchBlock_le_addFragments true record).trans length_le_switchBlock))
      hwritten
    have hagain : r'.readAllAt = r'.loopAll ⟨[], [], false, 0⟩ := by
      rw [readAllAt_eq, if_neg (by rw [hlast, hfrom.initialOffset]; omega)]
    rw [entries, recordsFrom_cons_of_le hoffset, ← hreports]
    constructor
    · unfold loopAll
      rw [hloop, ← hnext.records, ← hagain, ← hlast]
    · rw [← hnext.reports, ← hagain]
      unfold loopAll
      rw [hloop]

/-- A physical record that starts too early ends the mode that passes over fragments. -/
theorem From.readRecordLoop_early {data : Bytes} (begin_ : Bool) (hw : w.Aligned)
    (h : r.From file offset w.dest.length) (hfile : file.length < 2 ^ 63)
    (hp : p.inFragmentedRecord = false) (hearly : w.switchBlock.dest.length < offset)
    (hpre : (w.addFragment begin_ data).dest <+: file) :
    ∃ (r' : Reader) (p' : Partial), r'.From file offset (w.addFragment begin_ data).dest.length ∧
      r'.resyncing = false ∧ r'.reports = r.reports ∧ p'.inFragmentedRecord = false ∧
      r.readRecordLoop p = r'.readRecordLoop p' := by
  obtain ⟨r₁, hfollows, hfrom, -, hread⟩ := h.readPhysicalRecord begin_ p.fragment hw
    hfile hpre
  rw [if_pos hearly] at hread
  have hdispatch := dispatch_bad (r := r₁) (p := { p with fragment := [] }) hp
  exact ⟨{ r₁ with resyncing := false }, { p with fragment := [] }, { hfrom with }, rfl,
    hfollows.reports, hp, readRecordLoop_continues hread (by decide) hdispatch⟩

/-- The rest of a record that is reported, and the records behind it. -/
theorem From.delivers_stray {data : Bytes} {records : List Bytes} (hw : w.Aligned)
    (h : r.From file offset w.dest.length) (hfile : file.length < 2 ^ 63)
    (hr : r.resyncing = false) (hp : p.inFragmentedRecord = false) (hoffset : offset ≤ w.dest.length)
    (hwritten : (records.foldl Writer.addRecord (w.addFragments false data)).dest = file) :
    r.Delivers p (recordsFrom offset (entries (w.addFragments false data) records)) False := by
  have hpre : (w.addFragments false data).dest <+: file := by
    rw [← hwritten]
    exact Writer.prefix_addRecords _ records
  obtain ⟨r', p', hfrom, hreports, hp', hloop⟩ := h.strayRest hw hfile hr hp hoffset hpre
  refine ((hfrom.delivers_all (hw.addFragments false data) hfile hp' ?_ hwritten).of_loop hloop).congr
    rfl (iff_false_intro hreports)
  exact hoffset.trans ((w.prefix_addFragments false data).length_le.trans length_le_switchBlock)

/-- The records in and behind the block of the offset. -/
theorem From.delivers_early {records : List Bytes} (hw : w.Aligned)
    (h : r.From file offset w.dest.length) (hfile : file.length < 2 ^ 63)
    (hp : p.inFragmentedRecord = false) (hreports : r.reports = [])
    (hblock : offset / kBlockSize * kBlockSize ≤ w.dest.length)
    (hwritten : (records.foldl Writer.addRecord w).dest = file) :
    r.Delivers p (recordsFrom offset (entries w records))
      (∀ e ∈ entries w records, ¬ e.CutBy offset) := by
  induction records generalizing r w p with
  | nil =>
    obtain rfl := hwritten
    exact h.delivers_end.congr rfl (iff_of_true hreports (by simp [entries]))
  | cons record records ih =>
    rcases Nat.lt_or_ge w.switchBlock.dest.length offset with hearly | hoffset
    swap
    · exact (h.delivers_all hw hfile hp hoffset hwritten).congr rfl
        (iff_of_true hreports fun e he => not_cutBy_of_le hoffset he)
    have hgrow : w.dest.length ≤ w.switchBlock.dest.length := length_le_switchBlock
    have hpre : (w.addRecord record).dest <+: file := by
      rw [← hwritten]
      exact (w.addRecord record).prefix_addRecords records
    have hlater : offset ≤ (offset / kBlockSize + 1) * kBlockSize := by
      simp only [kBlockSize]
      omega
    have hsame : w.switchBlock.dest.length / kBlockSize = offset / kBlockSize := by
      simp only [kBlockSize] at *
      omega
    rw [entries, recordsFrom_cons_of_lt hearly]
    unfold Writer.addRecord at hpre ⊢
    rcases addFragments_cases hw true record with ⟨rest, heq, -, -, hend⟩ | ⟨heq, -, -, hend⟩
    · -- the record goes on in the next block
      rw [hsame] at hend
      rw [heq] at hpre ⊢
      obtain ⟨r', p', hfrom, hr', -, hp', hloop⟩ := h.readRecordLoop_early true hw hfile
        hp hearly ((Writer.prefix_addFragments _ _ _).trans hpre)
      have hwritten' : (records.foldl Writer.addRecord
          ((w.addFragment true record).addFragments false rest)).dest = file := by
        rw [← heq]
        exact hwritten
      refine ((hfrom.delivers_stray (hw.addFragment true record) hfile hr' hp'
        (hlater.trans hend.ge) hwritten').of_loop hloop).congr rfl ?_
      refine iff_of_false not_false fun hnone => hnone _ List.mem_cons_self ⟨hearly, ?_⟩
      exact hend.symm.trans_lt (length_lt_addFragments (hw.addFragment true record) false rest)
    · rw [hsame] at hend
      rw [heq] at hpre ⊢
      obtain ⟨r', p', hfrom, -, hreports', hp', hloop⟩ :=
        h.readRecordLoop_early true hw hfile hp hearly hpre
      have hwritten' : (records.foldl Writer.addRecord (w.addFragment true record)).dest = file := by
        rw [← heq]
        exact hwritten
      refine ((ih (hw.addFragment true record) hfrom hp' (hreports'.trans hreports)
        (hblock.trans length_le_addFragment) hwritten').of_loop hloop).congr rfl ?_
      rw [List.forall_mem_cons]
      refine (and_iff_right ?_).symm
      rintro ⟨-, hcut⟩
      exact absurd hend (Nat.not_le.mpr hcut)

end Phases

section Passing

variable {r : Reader} {file : Bytes} {offset target : Nat} {w : Writer} {p : Partial}

theorem switchBlock_switchBlock (hw : w.Aligned) : w.switchBlock.switchBlock = w.switchBlock := by
  have hroom := hw.switchBlock.2.1
  generalize w.switchBlock = w₁ at hroom
  unfold Writer.switchBlock
  rw [if_neg (by omega)]

theorem addFragments_switchBlock (hw : w.Aligned) (begin_ : Bool) (data : Bytes) :
    w.switchBlock.addFragments begin_ data = w.addFragments begin_ data := by
  have hlength : ∀ n, w.switchBlock.fragmentLength n = w.fragmentLength n := by
    intro n
    unfold Writer.fragmentLength
    rw [switchBlock_switchBlock hw]
  have hfragment : w.switchBlock.addFragment begin_ data = w.addFragment begin_ data := by
    unfold Writer.addFragment
    rw [switchBlock_switchBlock hw, hlength]
  rw [Writer.addFragments, hfragment, hlength, ← Writer.addFragments]

theorem entries_switchBlock (hw : w.Aligned) (record : Bytes) (records : List Bytes) :
    entries w.switchBlock (record :: records) = entries w (record :: records) := by
  unfold entries Writer.addRecord
  rw [switchBlock_switchBlock hw, addFragments_switchBlock hw]

/-- The block that `SkipToInitialBlock` goes to: that of the offset, or the next one behind a
trailer. -/
def IsInitialBlock (offset target : Nat) : Prop :=
  target = offset / kBlockSize * kBlockSize ∨
    (kBlockSize - 6 < offset % kBlockSize ∧ target = (offset / kBlockSize + 1) * kBlockSize)

/-- No header is between the offset and the block. -/
theorem IsInitialBlock.lt_offset (h : IsInitialBlock offset target) (hw : w.Aligned)
    (hlt : w.switchBlock.dest.length < target) : w.switchBlock.dest.length < offset := by
  have hfits := (length_addFragment hw true []).2.1
  unfold IsInitialBlock at h
  simp only [kBlockSize, kHeaderSize] at *
  omega

/-- The next header is in front of the block or at its beginning. -/
theorem IsInitialBlock.switchBlock_le (h : IsInitialBlock offset target) (hw : w.Aligned)
    (hle : w.dest.length ≤ target) : w.switchBlock.dest.length ≤ target := by
  have hstart := hw.switchBlock.2.2.2
  unfold IsInitialBlock at h
  simp only [kBlockSize, kHeaderSize] at *
  omega

/-- A fragment in front of the block ends there. -/
theorem IsInitialBlock.addFragment_le (h : IsInitialBlock offset target) (hw : w.Aligned)
    (hlt : w.switchBlock.dest.length < target) (begin_ : Bool) (data : Bytes) :
    (w.addFragment begin_ data).dest.length ≤ target := by
  obtain ⟨hlen, hfits, -⟩ := length_addFragment hw begin_ data
  unfold IsInitialBlock at h
  simp only [kBlockSize, kHeaderSize] at *
  omega

/-- A block that begins with the rest of a record. -/
theorem From.delivers_inside {data : Bytes} {records : List Bytes} (hw : w.Aligned)
    (h : r.From file offset w.dest.length) (hfile : file.length < 2 ^ 63)
    (htarget : IsInitialBlock offset w.dest.length) (hr : r.resyncing = true)
    (hp : p.inFragmentedRecord = false) (hreports : r.reports = [])
    (hwritten : (records.foldl Writer.addRecord (w.addFragments false data)).dest = file) :
    r.Delivers p (recordsFrom offset (entries (w.addFragments false data) records))
      (w.dest.length < offset →
        (w.addFragments false data).dest.length ≤ (offset / kBlockSize + 1) * kBlockSize ∧
        ∀ e ∈ entries (w.addFragments false data) records, ¬ e.CutBy offset) := by
  have hpre : (w.addFragments false data).dest <+: file := by
    rw [← hwritten]
    exact Writer.prefix_addRecords _ records
  have hstart : w.switchBlock.dest.length = w.dest.length :=
    le_antisymm (htarget.switchBlock_le hw le_rfl) length_le_switchBlock
  rcases Nat.lt_or_ge w.dest.length offset with hlt | hge
  swap
  · obtain ⟨r', p', hfrom, hreports', hp', hloop⟩ := h.skipRest hw hfile hr hp hge hpre
    refine ((hfrom.delivers_all (hw.addFragments false data) hfile hp' ?_ hwritten).of_loop
      hloop).congr rfl ?_
    · exact hge.trans ((w.prefix_addFragments false data).length_le.trans length_le_switchBlock)
    · exact iff_of_true (hreports'.trans hreports) fun hlt => absurd hge (Nat.not_le.mpr hlt)
  have hblock : w.dest.length = offset / kBlockSize * kBlockSize := by
    unfold IsInitialBlock at htarget
    simp only [kBlockSize] at *
    omega
  have hsame : w.switchBlock.dest.length / kBlockSize = offset / kBlockSize := by
    rw [hstart, hblock]
    exact Nat.mul_div_cancel _ (by decide)
  have hlater : offset ≤ (offset / kBlockSize + 1) * kBlockSize := by
    simp only [kBlockSize]
    omega
  rcases addFragments_cases hw false data with ⟨rest, heq, -, -, hend⟩ | ⟨heq, -, -, hend⟩
  · rw [hsame] at hend
    rw [heq] at hpre hwritten ⊢
    obtain ⟨r', p', hfrom, hr', -, hp', hloop⟩ := h.readRecordLoop_early false hw hfile
      hp (hstart.trans_lt hlt) ((Writer.prefix_addFragments _ _ _).trans hpre)
    refine ((hfrom.delivers_stray (hw.addFragment false data) hfile hr' hp'
      (hlater.trans hend.ge) hwritten).of_loop hloop).congr rfl ?_
    refine iff_of_false not_false fun hnone => ?_
    have hlong := length_lt_addFragments (hw.addFragment false data) false rest
    exact absurd (hnone hlt).1 (by omega)
  · rw [hsame] at hend
    rw [heq] at hpre hwritten ⊢
    obtain ⟨r', p', hfrom, -, hreports', hp', hloop⟩ :=
      h.readRecordLoop_early false hw hfile hp (hstart.trans_lt hlt) hpre
    refine ((hfrom.delivers_early (hw.addFragment false data) hfile hp' (hreports'.trans hreports)
      (hblock.ge.trans length_le_addFragment) hwritten).of_loop hloop).congr rfl ?_
    exact ⟨fun hall _ => ⟨hend, hall⟩, fun hall => (hall hlt).2⟩

/-- The writer passes the block in the middle of a record. The reader waits there. -/
theorem From.delivers_passedRest {data : Bytes} {records : List Bytes} (hw : w.Aligned)
    (h : r.From file offset target) (hfile : file.length < 2 ^ 63)
    (htarget : IsInitialBlock offset target) (hr : r.resyncing = true)
    (hp : p.inFragmentedRecord = false) (hreports : r.reports = []) (hle : w.dest.length ≤ target)
    (hnext : ∀ w' : Writer, w'.Aligned → w'.dest.length ≤ target →
      (records.foldl Writer.addRecord w').dest = file →
      r.Delivers p (recordsFrom offset (entries w' records))
        (target < offset → ∀ e ∈ entries w' records, ¬ e.CutBy offset))
    (hwritten : (records.foldl Writer.addRecord (w.addFragments false data)).dest = file) :
    r.Delivers p (recordsFrom offset (entries (w.addFragments false data) records))
      (target < offset →
        (w.addFragments false data).dest.length ≤ (offset / kBlockSize + 1) * kBlockSize ∧
        ∀ e ∈ entries (w.addFragments false data) records, ¬ e.CutBy offset) := by
  -- the block is reached with the next header, or lies behind its fragment
  have hreached : ∀ (w : Writer) (data : Bytes), w.Aligned →
      w.switchBlock.dest.length = target →
      (records.foldl Writer.addRecord (w.addFragments false data)).dest = file →
      r.Delivers p (recordsFrom offset (entries (w.addFragments false data) records))
        (target < offset →
          (w.addFragments false data).dest.length ≤ (offset / kBlockSize + 1) * kBlockSize ∧
          ∀ e ∈ entries (w.addFragments false data) records, ¬ e.CutBy offset) := by
    rintro w data hw rfl hwritten
    have hwritten' : (records.foldl Writer.addRecord (w.switchBlock.addFragments false data)).dest =
        file := by rwa [addFragments_switchBlock hw]
    have hinside := h.delivers_inside hw.switchBlock.1 hfile htarget hr hp hreports hwritten'
    rwa [addFragments_switchBlock hw] at hinside
  induction w, data using rest_induction with
  | more w data rest heq hdata hend ih =>
    rcases (htarget.switchBlock_le hw hle).eq_or_lt with hat | hlt
    · exact hreached w data hw hat hwritten
    · rw [heq] at hwritten ⊢
      exact ih (hw.addFragment _ _) (htarget.addFragment_le hw hlt _ _) hwritten
  | last w data heq hdata hend =>
    rcases (htarget.switchBlock_le hw hle).eq_or_lt with hat | hlt
    · exact hreached w data hw hat hwritten
    · rw [heq] at hwritten ⊢
      have hstop := htarget.addFragment_le hw hlt false data
      refine (hnext _ (hw.addFragment _ _) hstop hwritten).congr rfl ?_
      refine forall_congr' fun hoffset => (and_iff_right ?_).symm
      simp only [kBlockSize] at *
      omega

/-- The writer passes the block. The reader waits there. -/
theorem From.delivers_passed {records : List Bytes} (hw : w.Aligned)
    (h : r.From file offset target) (hfile : file.length < 2 ^ 63)
    (htarget : IsInitialBlock offset target) (hr : r.resyncing = true)
    (hp : p.inFragmentedRecord = false) (hreports : r.reports = []) (hle : w.dest.length ≤ target)
    (hwritten : (records.foldl Writer.addRecord w).dest = file) :
    r.Delivers p (recordsFrom offset (entries w records))
      (target < offset → ∀ e ∈ entries w records, ¬ e.CutBy offset) := by
  induction records generalizing w with
  | nil =>
    obtain rfl := hwritten
    obtain rfl : target = w.dest.length := le_antisymm (h.cur_le.trans h.filePos_le) hle
    exact h.delivers_end.congr rfl (iff_of_true hreports (by simp [entries]))
  | cons record records ih =>
    rcases (htarget.switchBlock_le hw hle).eq_or_lt with rfl | hlt
    · have hwritten' : ((record :: records).foldl Writer.addRecord w.switchBlock).dest = file := by
        rw [← hwritten, List.foldl_cons, List.foldl_cons]
        unfold Writer.addRecord
        rw [addFragments_switchBlock hw]
      rw [← entries_switchBlock hw]
      rcases Nat.lt_or_ge w.switchBlock.dest.length offset with hearly | hoffset
      · refine (h.delivers_early hw.switchBlock.1 hfile hp hreports ?_ hwritten').congr rfl ?_
        · unfold IsInitialBlock at htarget
          simp only [kBlockSize] at *
          omega
        · exact ⟨fun hall _ => hall, fun hall => hall hearly⟩
      · refine (h.delivers_all hw.switchBlock.1 hfile hp ?_ hwritten').congr rfl ?_
        · rwa [switchBlock_switchBlock hw]
        · exact iff_of_true hreports fun hearly => absurd hoffset (Nat.not_le.mpr hearly)
    · have hearly := htarget.lt_offset hw hlt
      have hstop := htarget.addFragment_le hw hlt true record
      rw [entries, recordsFrom_cons_of_lt hearly]
      rw [List.foldl_cons] at hwritten
      unfold Writer.addRecord at hwritten ⊢
      rcases addFragments_cases hw true record with ⟨rest, heq, -⟩ | ⟨heq, -⟩
      · rw [heq] at hwritten ⊢
        refine (h.delivers_passedRest (hw.addFragment _ _) hfile htarget hr hp hreports hstop
          (fun w' hw' hle' hwritten' => ih hw' hle' hwritten') hwritten).congr rfl ?_
        refine forall_congr' fun _ => ?_
        rw [List.forall_mem_cons]
        refine and_congr_left fun _ => ?_
        unfold Entry.CutBy
        simp only [hearly, true_and, not_lt]
      · rw [heq] at hwritten ⊢
        refine (ih (hw.addFragment _ _) hstop hwritten).congr rfl ?_
        refine forall_congr' fun hoffset => ?_
        rw [List.forall_mem_cons]
        refine (and_iff_right ?_).symm
        rintro ⟨-, hcut⟩
        simp only [kBlockSize] at *
        omega

/-- Where the block is behind the file, so is the offset behind the records. -/
theorem IsInitialBlock.recordsFrom_eq_nil (h : IsInitialBlock offset target) (hw : w.Aligned)
    {records : List Bytes} (hlt : (records.foldl Writer.addRecord w).dest.length < target) :
    recordsFrom offset (entries w records) = [] := by
  induction records generalizing w with
  | nil => rfl
  | cons record records ih =>
    have hstart : w.switchBlock.dest.length ≤ (w.addRecord record).dest.length :=
      switchBlock_le_addFragments true record
    have hend := ((w.addRecord record).prefix_addRecords records).length_le
    rw [List.foldl_cons] at hlt
    rw [entries, recordsFrom_cons_of_lt (h.lt_offset hw ((hstart.trans hend).trans_lt hlt))]
    exact ih (hw.addRecord record) hlt

end Passing

/-- `SkipToInitialBlock` in a new reader. -/
theorem from_skipToInitialBlock (file : Bytes) (checksum : Bool) (offset : Nat) :
    ∃ target, IsInitialBlock offset target ∧
      (target < offset ↔ 0 < offset % kBlockSize ∧ offset % kBlockSize ≤ kBlockSize - 6) ∧
      ((ofFile file checksum offset).skipToInitialBlock).filePos = target ∧
      (target ≤ file.length →
        ((ofFile file checksum offset).skipToInitialBlock).From file offset target) := by
  obtain ⟨target, htarget⟩ : ∃ target, target =
      if kBlockSize - 6 < offset % kBlockSize then offset - offset % kBlockSize + kBlockSize
      else offset - offset % kBlockSize := ⟨_, rfl⟩
  have hskip : (ofFile file checksum offset).skipToInitialBlock =
      { ofFile file checksum offset with endOfBufferOffset := target, filePos := target } := by
    rw [htarget]
    simp only [skipToInitialBlock, ofFile, Nat.zero_add]
    rfl
  have hcases : (kBlockSize - 6 < offset % kBlockSize ∧
        target = offset - offset % kBlockSize + kBlockSize) ∨
      (offset % kBlockSize ≤ kBlockSize - 6 ∧ target = offset - offset % kBlockSize) := by
    rw [htarget]
    split
    · exact .inl ⟨‹_›, rfl⟩
    · exact .inr ⟨not_lt.mp ‹_›, rfl⟩
  refine ⟨target, ?_, ?_, by rw [hskip], fun hle => ?_⟩
  · unfold IsInitialBlock
    simp only [kBlockSize] at *
    omega
  · simp only [kBlockSize] at *
    omega
  · rw [hskip]
    refine ⟨⟨rfl, ?_, le_rfl, hle, fun _ => ⟨?_, Nat.le_add_right _ _⟩, fun h => (by cases h)⟩, rfl, rfl⟩
    · rw [Nat.sub_self, List.take_zero]
      rfl
    · simp only [kBlockSize] at *
      omega

end Reader

/-- The offset is in the inside of a block, in front of its last five bytes, and a record that
starts before the offset goes on behind this block. -/
def CutsRecord (offset : Nat) (es : List Entry) : Prop :=
  0 < offset % kBlockSize ∧ offset % kBlockSize ≤ kBlockSize - 6 ∧ ∃ e ∈ es, e.CutBy offset

/-- The reader returns the records from the offset on; it reports nothing unless the offset cuts
a record. -/
theorem readAllAt_offset (records : List Bytes) (checksum : Bool) {offset : Nat}
    (hfile : (writeLog [] records).length < 2 ^ 63)
    (hoffset : offset ≤ (writeLog [] records).length) :
    let r := Reader.ofFile (writeLog [] records) checksum offset
    r.readAllAt.1 = recordsFrom offset (entries (.ofFile []) records) ∧
      (r.readAllAt.2.reports = [] ↔ ¬ CutsRecord offset (entries (.ofFile []) records)) := by
  intro r
  have hw := Writer.aligned_ofFile []
  suffices hdelivers : (if r.lastRecordOffset < r.initialOffset then r.skipToInitialBlock
      else r).Delivers ⟨[], [], false, 0⟩ (recordsFrom offset (entries (.ofFile []) records))
        (¬ CutsRecord offset (entries (.ofFile []) records)) by
    rw [Reader.readAllAt_eq]
    exact ⟨hdelivers.records, hdelivers.reports⟩
  rcases Nat.eq_zero_or_pos offset with rfl | hpos
  · have hlast : ¬ r.lastRecordOffset < r.initialOffset := Nat.lt_irrefl 0
    rw [if_neg hlast]
    have hfrom : r.From (writeLog [] records) 0 (Writer.ofFile []).dest.length :=
      { Reader.at_ofFile _ checksum with position := rfl }
    refine (hfrom.delivers_early hw hfile rfl rfl le_rfl rfl).congr rfl ?_
    exact iff_of_true (fun e _ hcut => absurd hcut.1 (Nat.not_lt_zero _))
      fun hcuts => absurd hcuts.1 (by decide)
  · have hlast : r.lastRecordOffset < r.initialOffset := hpos
    rw [if_pos hlast]
    obtain ⟨target, htarget, hinside, hpos', hfrom⟩ :=
      Reader.from_skipToInitialBlock (writeLog [] records) checksum offset
    have hresync : (r.skipToInitialBlock).resyncing = true := decide_eq_true hpos
    rcases Nat.lt_or_ge (writeLog [] records).length target with hbehind | hle
    · refine (Reader.delivers_end rfl ?_).congr ?_ ?_
      · rw [hpos']
        exact hbehind.le
      · exact (htarget.recordsFrom_eq_nil hw hbehind).symm
      · refine iff_of_true rfl fun hcuts => ?_
        have hlt := hinside.mpr ⟨hcuts.1, hcuts.2.1⟩
        omega
    · refine ((hfrom hle).delivers_passed hw hfile htarget hresync rfl rfl (Nat.zero_le _)
        rfl).congr rfl ?_
      unfold CutsRecord
      rw [← and_assoc, ← hinside, not_and]
      simp only [not_exists, not_and]

/-- A reader from the offset returns the records whose first header is there or behind it, each
with the offset of this header, and reports no corruption. -/
def ReadsFrom (records : List Bytes) (checksum : Bool) (offset : Nat) : Prop :=
  let r := Reader.ofFile (writeLog [] records) checksum offset
  r.readAllAt.1 = recordsFrom offset (entries (.ofFile []) records) ∧ r.readAllAt.2.reports = []

/-- In a file whose length is one, a reader from an offset does what it is to do exactly when
the offset cuts no record. -/
theorem readsFrom_iff (records : List Bytes) (checksum : Bool) {offset : Nat}
    (hfile : (writeLog [] records).length < 2 ^ 63)
    (hoffset : offset ≤ (writeLog [] records).length) :
    ReadsFrom records checksum offset ↔ ¬ CutsRecord offset (entries (.ofFile []) records) := by
  obtain ⟨hrecords, hreports⟩ := readAllAt_offset records checksum hfile hoffset
  exact ⟨fun h => hreports.mp h.2, fun h => ⟨hrecords, hreports.mpr h⟩⟩

/-- A fragment that fits in the rest of a block is the last one. -/
theorem length_addFragments_of_fits {w : Writer} (hw : w.Aligned) (begin_ : Bool) {data : Bytes}
    (h : w.dest.length % kBlockSize + kHeaderSize + data.length ≤ kBlockSize) :
    (w.addFragments begin_ data).dest.length = w.dest.length + kHeaderSize + data.length := by
  have hstart := hw.switchBlock.2.2
  obtain ⟨hlen, -, hfull⟩ := Reader.length_addFragment hw begin_ data
  have hle := w.fragmentLength_le data.length
  have hwhole : w.fragmentLength data.length = data.length := by
    by_contra hne
    have hblock := hfull (by omega)
    simp only [kBlockSize, kHeaderSize] at *
    omega
  rcases Reader.addFragments_cases hw begin_ data with ⟨-, -, -, hend, -⟩ | ⟨heq, -⟩
  · rw [hwhole, beq_self_eq_true] at hend
    cases hend
  · rw [heq, hlen, hwhole]
    simp only [kBlockSize, kHeaderSize] at *
    omega

/-- Two short records, and the offset behind the first byte: the second one is returned. -/
theorem readsFrom_iff_short :
    ReadsFrom [[7], [8]] true 1 ↔ ¬ CutsRecord 1 (entries (.ofFile []) [[7], [8]]) := by
  have hw := Writer.aligned_ofFile []
  have hfirst : ((Writer.ofFile []).addRecord [7]).dest.length = 8 :=
    length_addFragments_of_fits hw true (by decide)
  have hsecond : (writeLog [] [[7], [8]]).length = 16 := by
    refine (length_addFragments_of_fits (hw.addRecord [7]) true ?_).trans ?_
    · rw [hfirst]
      decide
    · rw [hfirst]
      rfl
  exact readsFrom_iff _ _ (by rw [hsecond]; decide) (by rw [hsecond]; decide)

section Long

variable {record : Bytes}

/-- A record of one byte more than its block takes. -/
theorem length_writeLog_long (h : record.length = 32762) :
    (writeLog [] [record]).length = 32776 := by
  have hw := Writer.aligned_ofFile []
  have hstart : (Writer.ofFile []).switchBlock.dest.length = 0 := by decide
  have htakes : (Writer.ofFile []).fragmentLength record.length = 32761 := by
    rw [h]
    decide
  change ((Writer.ofFile []).addFragments true record).dest.length = 32776
  rcases Reader.addFragments_cases hw true record with
    ⟨rest, heq, hdata, -, hfirst⟩ | ⟨-, -, hend, -⟩
  · have hrest := congrArg List.length hdata
    rw [List.length_append, List.length_take, htakes, h] at hrest
    rw [hstart] at hfirst
    rw [heq, length_addFragments_of_fits (hw.addFragment true record)]
    · simp only [kBlockSize, kHeaderSize] at *
      omega
    · simp only [kBlockSize, kHeaderSize] at *
      omega
  · rw [htakes, h] at hend
    cases hend

/-- Its rest is reported by a reader from the offset behind its first byte. -/
theorem not_readsFrom_of_long (h : record.length = 32762) : ¬ ReadsFrom [record] true 1 := by
  have hlen := length_writeLog_long h
  have hstart : (Writer.ofFile []).switchBlock.dest.length = 0 := by decide
  intro hreads
  obtain ⟨-, hreports⟩ := @readAllAt_offset [record] true 1
    (by rw [hlen]; decide) (by rw [hlen]; decide)
  refine hreports.mp hreads.2 ⟨by decide, by decide, _, List.mem_cons_self, ?_, ?_⟩
  · simp only
    rw [hstart]
    decide
  · change _ < (writeLog [] [record]).length
    rw [hlen]
    decide

end Long

/-- A record of zeros, one byte longer than its block takes. -/
theorem not_readsFrom_long :
    1 ≤ (writeLog [] [List.replicate 32762 0]).length ∧
      (writeLog [] [List.replicate 32762 0]).length < 2 ^ 63 ∧
      ¬ ReadsFrom [List.replicate 32762 0] true 1 := by
  have hlen := @length_writeLog_long (List.replicate 32762 0) List.length_replicate
  rw [hlen]
  exact ⟨by decide, by decide, not_readsFrom_of_long List.length_replicate⟩

end WiscKey.Log
