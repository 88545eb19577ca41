import WiscKey.Log.RoundTrip

/-!
# Torn logs

A log file that was cut is a prefix of what the writer wrote. The reader takes the records
that are whole, and the first one that is not ends the file for it: the cut leaves less than a
header, or less payload than the header says, and either is found in the last, short block.
-/

namespace WiscKey.Log

/-- The records that a writer adds, each with the position behind its last byte. -/
def recordEnds : Writer → List Bytes → List (Bytes × Nat)
  | _, [] => []
  | w, record :: records =>
    (record, (w.addRecord record).dest.length) :: recordEnds (w.addRecord record) records

/-- The same over several writers, each reopening the file of the one before. -/
def sessionEnds (dest : Bytes) : List (List Bytes) → List (Bytes × Nat)
  | [] => []
  | records :: sessions =>
    recordEnds (.ofFile dest) records ++ sessionEnds (writeLog dest records) sessions

/-- The records that end at a position or before it. -/
def wholeRecords (cut : Nat) (ends : List (Bytes × Nat)) : List Bytes :=
  (ends.filter fun e => e.2 ≤ cut).map Prod.fst

theorem wholeRecords_append (cut : Nat) (ends ends' : List (Bytes × Nat)) :
    wholeRecords cut (ends ++ ends') = wholeRecords cut ends ++ wholeRecords cut ends' := by
  rw [wholeRecords, List.filter_append, List.map_append]
  rfl

theorem wholeRecords_eq_nil {cut : Nat} {ends : List (Bytes × Nat)} (h : ∀ e ∈ ends, cut < e.2) :
    wholeRecords cut ends = [] := by
  rw [wholeRecords, List.map_eq_nil_iff, List.filter_eq_nil_iff]
  intro e he
  simpa using h e he

section Ends

/-- A record ends behind the start of its writer. -/
theorem le_of_mem_recordEnds {w : Writer} {records : List Bytes} {e : Bytes × Nat}
    (h : e ∈ recordEnds w records) : w.dest.length ≤ e.2 := by
  induction records generalizing w with
  | nil => cases h
  | cons record records ih =>
    have hgrow : w.dest.length ≤ (w.addRecord record).dest.length :=
      (w.prefix_addFragments true record).length_le
    rcases List.mem_cons.mp h with rfl | htail
    · exact hgrow
    · exact hgrow.trans (ih htail)

theorem le_of_mem_sessionEnds {dest : Bytes} {sessions : List (List Bytes)} {e : Bytes × Nat}
    (h : e ∈ sessionEnds dest sessions) : dest.length ≤ e.2 := by
  induction sessions generalizing dest with
  | nil => cases h
  | cons records sessions ih =>
    have hgrow : dest.length ≤ (writeLog dest records).length :=
      ((Writer.ofFile dest).prefix_addRecords records).length_le
    rcases List.mem_append.mp h with hhead | htail
    · exact le_of_mem_recordEnds hhead
    · exact hgrow.trans (ih htail)

/-- The records of a writer end where the file ends or before. -/
theorem mem_recordEnds_le {w : Writer} {records : List Bytes} {e : Bytes × Nat}
    (h : e ∈ recordEnds w records) : e.2 ≤ (records.foldl Writer.addRecord w).dest.length := by
  induction records generalizing w with
  | nil => cases h
  | cons record records ih =>
    rcases List.mem_cons.mp h with rfl | htail
    · exact ((w.addRecord record).prefix_addRecords records).length_le
    · exact ih htail

theorem mem_sessionEnds_le {dest : Bytes} {sessions : List (List Bytes)} {e : Bytes × Nat}
    (h : e ∈ sessionEnds dest sessions) : e.2 ≤ (sessions.foldl writeLog dest).length := by
  induction sessions generalizing dest with
  | nil => cases h
  | cons records sessions ih =>
    rcases List.mem_append.mp h with hhead | htail
    · exact (mem_recordEnds_le hhead).trans (prefix_writeLogs _ sessions).length_le
    · exact ih htail

/-- The records of writers whose file is whole are all whole. -/
theorem wholeRecords_recordEnds {w : Writer} {records : List Bytes} {cut : Nat}
    (h : (records.foldl Writer.addRecord w).dest.length ≤ cut) :
    wholeRecords cut (recordEnds w records) = records := by
  have hall : ∀ e ∈ recordEnds w records, e.2 ≤ cut := fun e he => (mem_recordEnds_le he).trans h
  rw [wholeRecords, List.filter_eq_self.mpr fun e he => by simpa using hall e he]
  clear h hall
  induction records generalizing w with
  | nil => rfl
  | cons record records ih =>
    rw [recordEnds, List.map_cons, ih]

end Ends

namespace Reader

variable {r : Reader} {file : Bytes} {cur : Nat}

/-- The file ends before the next header does: the reader finds its end. -/
theorem At.readPhysicalRecord_short {start : Nat} (h : r.At file cur)
    (hstart : start = cur ∨ cur ≤ start ∧ start % kBlockSize = 0 ∧ start < cur + kHeaderSize)
    (hfile : file.length < start + kHeaderSize) (result : Bytes) :
    ∃ r' : Reader, r'.reports = [] ∧ r.readPhysicalRecord result = (kEof, result, r') := by
  have hlen := h.length_buffer
  have hcur := h.cur_le
  have hpos := h.filePos_le
  have hshort : r.buffer.length < kHeaderSize := by
    by_contra hlong
    cases heof : r.eof with
    | false =>
      have hb := h.block heof
      simp only [kBlockSize, kHeaderSize] at *
      omega
    | true =>
      have hs := h.short heof
      simp only [kBlockSize, kHeaderSize] at *
      omega
  rw [Reader.readPhysicalRecord, if_pos hshort]
  cases heof : r.eof with
  | true => exact ⟨{ r with buffer := [] }, h.reports, by rw [if_pos rfl, heof]⟩
  | false =>
    have hb := h.block heof
    refine ⟨{ r.readBlock with buffer := [] }, h.reports, ?_⟩
    rw [if_neg (by simp)]
    refine if_pos ?_
    simp only [Reader.readBlock, h.contents, List.length_take, List.length_drop]
    simp only [kBlockSize, kHeaderSize] at *
    omega

/-- The file ends in the payload that the next header announces: the reader finds its end. -/
theorem At.parsePhysicalRecord_torn {t : Nat} {data : Bytes} (h : r.At file cur)
    (hfull : kHeaderSize ≤ r.buffer.length) (htorn : file.drop cur <+: Writer.physicalRecord t data)
    (hlt : file.length < cur + kHeaderSize + data.length)
    (hfits : cur % kBlockSize + kHeaderSize + data.length ≤ kBlockSize) (result : Bytes) :
    ∃ r' : Reader, r'.reports = [] ∧ r.parsePhysicalRecord result = (kEof, result, r') := by
  have hlen := h.length_buffer
  have hcur := h.cur_le
  have hpos := h.filePos_le
  -- a full read ends at a block boundary, and the record is all before the next one
  have heof : r.eof = true := by
    by_contra heof
    have hb := h.block (by simpa using heof)
    simp only [kBlockSize, kHeaderSize] at *
    omega
  obtain ⟨tail, htail⟩ : r.buffer <+: Writer.physicalRecord t data := by
    rw [h.buffer]
    exact (List.take_prefix _ _).trans htorn
  have hbyte : ∀ i < kHeaderSize, r.buffer.getD i 0 = (Writer.physicalRecord t data).getD i 0 := by
    intro i hi
    rw [← htail, List.getD_eq_getElem?_getD, List.getD_eq_getElem?_getD,
      List.getElem?_append_left (hi.trans_le hfull)]
  have hlength : (r.buffer.getD 4 0).toNat ||| (r.buffer.getD 5 0).toNat <<< 8 = data.length := by
    rw [hbyte 4 (by decide), hbyte 5 (by decide)]
    exact length_bytes (by simp only [kBlockSize, kHeaderSize] at hfits; omega)
  refine ⟨{ r with buffer := [] }, h.reports, ?_⟩
  unfold parsePhysicalRecord
  simp only [hlength]
  rw [if_pos (by omega), if_pos heof]

/-- A physical record that the file holds the beginning of: the reader finds the file's end. -/
theorem At.readPhysicalRecord_torn {w : Writer} {begin_ : Bool} {data : Bytes} (hw : w.Aligned)
    (h : r.At file w.dest.length) (hpre : file <+: (w.addFragment begin_ data).dest)
    (hlt : file.length < (w.addFragment begin_ data).dest.length) (result : Bytes) :
    ∃ r' : Reader, r'.reports = [] ∧ r.readPhysicalRecord result = (kEof, result, r') := by
  obtain ⟨halign, hroom, hgrow, hstart⟩ := hw.switchBlock
  have hfits := Writer.fragmentLength_fits hw data.length
  have hmod := halign.offset_mod
  have htake : (data.take (w.fragmentLength data.length)).length =
      w.fragmentLength data.length := by
    rw [List.length_take, Nat.min_eq_left (w.fragmentLength_le _)]
  rw [Writer.dest_addFragment] at hpre hlt
  have hblock : w.switchBlock.dest.length % kBlockSize = w.switchBlock.blockOffset := by
    rw [hmod]
    exact Nat.mod_eq_of_lt (by simp only [kBlockSize, kHeaderSize] at *; omega)
  rcases Nat.lt_or_ge file.length (w.switchBlock.dest.length + kHeaderSize) with hheader | hheader
  · exact h.readPhysicalRecord_short (hstart.imp_right fun hs => ⟨hgrow, hs⟩) hheader
      result
  · obtain ⟨r₁, hfollows, hloaded, hfull, hread⟩ := h.ready hgrow hstart (hblock ▸ hroom) hheader
    have hat := h.follow hfollows hloaded
    have hdrop : file.drop w.switchBlock.dest.length <+: Writer.physicalRecord
        (Writer.fragmentType begin_ (data.length == w.fragmentLength data.length))
        (data.take (w.fragmentLength data.length)) := by
      obtain ⟨tail, htail⟩ := hpre
      refine ⟨tail, ?_⟩
      rw [← List.drop_append_of_le_length (by omega), htail, List.drop_left]
    rw [List.length_append, Writer.length_physicalRecord, ← Nat.add_assoc] at hlt
    obtain ⟨r', hreports, hparse⟩ := hat.parsePhysicalRecord_torn hfull hdrop hlt
      (by rw [hblock, htake]; exact hfits) result
    exact ⟨r', hreports, (hread result).trans hparse⟩

/-- The loop of `ReadRecord` over a record that the file holds the beginning of. -/
theorem At.readRecordLoop_torn {w : Writer} {begin_ : Bool} {data done : Bytes} {p : Partial}
    (hw : w.Aligned) (h : r.At file w.dest.length) (hp : p.Holds begin_ done)
    (hpre : file <+: (w.addFragments begin_ data).dest)
    (hlt : file.length < (w.addFragments begin_ data).dest.length) :
    ∃ r' : Reader, r'.reports = [] ∧ r.readRecordLoop p = (none, r') := by
  -- the loop goes on over the fragments that are whole, and stops at the first that is not
  have hstop : ∀ {w : Writer} {begin_ : Bool} {data : Bytes} {r : Reader} {p : Partial},
      w.Aligned → r.At file w.dest.length → file <+: (w.addFragment begin_ data).dest →
      file.length < (w.addFragment begin_ data).dest.length →
      ∃ r' : Reader, r'.reports = [] ∧ r.readRecordLoop p = (none, r') := by
    intro w begin_ data r p hw h hpre hlt
    obtain ⟨r', hreports, hread⟩ := h.readPhysicalRecord_torn hw hpre hlt p.fragment
    exact ⟨{ r' with resyncing := false }, hreports, readRecordLoop_eof hread⟩
  induction w, begin_, data using Writer.addFragments.induct generalizing r p done with
  | case1 w begin_ data w' rest =>
    rename_i hrest ih
    rw [Writer.addFragments, if_pos hrest] at hpre hlt
    have hnext : (w.addFragment begin_ data).dest <+:
        ((w.addFragment begin_ data).addFragments false rest).dest :=
      Writer.prefix_addFragments _ _ _
    rcases Nat.lt_or_ge file.length (w.addFragment begin_ data).dest.length with hcut | hwhole
    · exact hstop hw h (List.prefix_of_prefix_length_le hpre hnext hcut.le) hcut
    · obtain ⟨r₁, hat, hread⟩ := h.readPhysicalRecord p.fragment hw
        (List.prefix_of_prefix_length_le hnext hpre hwhole)
      have hmore : (data.length == w.fragmentLength data.length) = false := by
        simp only [rest, List.length_drop] at hrest
        simp only [beq_eq_false_iff_ne]
        omega
      rw [hmore] at hread
      obtain ⟨p₁, hdispatch, hp₁⟩ := dispatch_more (r := r₁)
        (p := { p with fragment := data.take (w.fragmentLength data.length) })
        hat.resyncing hp rfl
      obtain ⟨r', hreports, hloop⟩ := ih (hw.addFragment begin_ data) hat hp₁ hpre hlt
      refine ⟨r', hreports, ?_⟩
      rw [readRecordLoop_continues hread (fragmentType_ne_kEof _ _) hdispatch, hloop]
  | case2 w begin_ data rest =>
    rename_i hrest
    rw [Writer.addFragments, if_neg hrest] at hpre hlt
    exact hstop hw h hpre hlt

/-- `ReadRecord` at the beginning of a record that is not whole. -/
theorem At.readRecord_torn {w : Writer} {record : Bytes} (hw : w.Aligned)
    (h : r.At file w.dest.length) (hpre : file <+: (w.addRecord record).dest)
    (hlt : file.length < (w.addRecord record).dest.length) :
    ∃ r' : Reader, r'.reports = [] ∧ r.readRecord = (none, r') := by
  unfold Reader.readRecord
  rw [if_neg (by rw [h.initialOffset]; exact Nat.not_lt_zero _)]
  have hp : (⟨[], [], false, 0⟩ : Partial).Holds true [] := ⟨rfl, rfl⟩
  exact h.readRecordLoop_torn hw hp hpre hlt

/-- A reader at a writer's start, in a file that ends among the writer's records. -/
theorem At.reads_torn {w : Writer} (hw : w.Aligned) (records : List Bytes)
    (h : r.At file w.dest.length) (hpre : file <+: (records.foldl Writer.addRecord w).dest)
    (hlt : file.length < (records.foldl Writer.addRecord w).dest.length) :
    r.Reads (wholeRecords file.length (recordEnds w records)) := by
  induction records generalizing r w with
  | nil =>
    have hle := h.cur_le.trans h.filePos_le
    rw [List.foldl_nil] at hlt
    omega
  | cons record records ih =>
    have hnext := (w.addRecord record).prefix_addRecords records
    rw [List.foldl_cons] at hpre hlt
    rcases Nat.lt_or_ge file.length (w.addRecord record).dest.length with hcut | hwhole
    · obtain ⟨r', hreports, hread⟩ := h.readRecord_torn hw
        (List.prefix_of_prefix_length_le hpre hnext hcut.le) hcut
      have hnone : wholeRecords file.length (recordEnds w (record :: records)) = [] := by
        refine wholeRecords_eq_nil fun e he => ?_
        rcases List.mem_cons.mp he with rfl | htail
        · exact hcut
        · exact hcut.trans_le (le_of_mem_recordEnds htail)
      rw [hnone]
      exact .nil h.reports hread hreports
    · obtain ⟨r₁, hat, hread⟩ := h.readRecord hw
        (List.prefix_of_prefix_length_le hnext hpre hwhole)
      have hhead : wholeRecords file.length (recordEnds w (record :: records)) =
          record :: wholeRecords file.length (recordEnds (w.addRecord record) records) := by
        rw [recordEnds, wholeRecords, List.filter_cons_of_pos (by simpa using hwhole),
          List.map_cons]
        rfl
      rw [hhead]
      exact .cons h.reports hread (ih (hw.addRecord record) hat hpre hlt)

/-- The same over several writers. -/
theorem At.reads_sessions_torn (dest : Bytes) (sessions : List (List Bytes))
    (h : r.At file dest.length) (hpre : file <+: sessions.foldl writeLog dest) :
    r.Reads (wholeRecords file.length (sessionEnds dest sessions)) := by
  induction sessions generalizing r dest with
  | nil =>
    have hle := h.cur_le.trans h.filePos_le
    obtain rfl : file = dest := hpre.eq_of_length_le hle
    obtain ⟨r', hreports, hread⟩ := h.readRecord_end
    exact .nil h.reports hread hreports
  | cons records sessions ih =>
    have hw := Writer.aligned_ofFile dest
    have hnext := prefix_writeLogs (writeLog dest records) sessions
    rw [List.foldl_cons] at hpre
    rw [sessionEnds, wholeRecords_append]
    rcases Nat.lt_or_ge file.length (writeLog dest records).length with hcut | hwhole
    · have hnone : wholeRecords file.length (sessionEnds (writeLog dest records) sessions) = [] :=
        wholeRecords_eq_nil fun e he => hcut.trans_le (le_of_mem_sessionEnds he)
      rw [hnone, List.append_nil]
      exact h.reads_torn hw records (List.prefix_of_prefix_length_le hpre hnext hcut.le) hcut
    · obtain ⟨r₁, hat, hall⟩ := h.reads_append hw records
        (List.prefix_of_prefix_length_le hnext hpre hwhole)
      rw [wholeRecords_recordEnds (w := .ofFile dest) hwhole]
      exact hall _ (ih _ hat hpre)

end Reader

/-- A log that is cut anywhere reads back as the records that end before the cut, in order, then
the end of the file, and no corruption is reported. -/
theorem readAll_torn (sessions : List (List Bytes)) (cut : Nat) (checksum : Bool) :
    let r := Reader.ofFile ((sessions.foldl writeLog []).take cut) checksum 0
    r.readAll.1 = wholeRecords cut (sessionEnds [] sessions) ∧ r.readAll.2.reports = [] := by
  intro r
  have hreads := (Reader.at_ofFile ((sessions.foldl writeLog []).take cut)
    checksum).reads_sessions_torn [] sessions (List.take_prefix _ _)
  have hcut : wholeRecords ((sessions.foldl writeLog []).take cut).length
      (sessionEnds [] sessions) = wholeRecords cut (sessionEnds [] sessions) := by
    unfold wholeRecords
    refine congrArg (List.map Prod.fst) (List.filter_congr fun e he => ?_)
    have hle := mem_sessionEnds_le he
    rw [List.length_take]
    simp only [decide_eq_decide]
    omega
  rw [hcut] at hreads
  exact hreads.readAll

end WiscKey.Log
