import WiscKey.Core.Status
import WiscKey.Library.Segments
import Mathlib.Data.List.OfFn

/-!
# Files in memory

The data of a file in memory is in blocks of one size, of which the last is filled in part. A copy
from or to a place outside of a block has no value, nor has an access to a block that is not there.
-/

namespace WiscKey

/-- `FileState::kBlockSize`. -/
def kBlockSize : Nat := 8 * 1024

/-- `FileState`. -/
structure FileState where
  blocks : List Bytes
  size : Nat

/-- `memcpy` to a place in a block. -/
def memcpyTo (block : Bytes) (offset : Nat) (src : Bytes) : Option Bytes :=
  if offset + src.length ≤ block.length then
    some (block.take offset ++ (src ++ block.drop (offset + src.length)))
  else none

/-- A slice of a block. -/
def sliceOf (block : Bytes) (offset n : Nat) : Option Bytes :=
  if offset + n ≤ block.length then some ((block.drop offset).take n) else none

namespace FileState

/-- The constructor. -/
def new : FileState := ⟨[], 0⟩

/-- `blocks_[block] + block_offset`, `n` bytes from there. -/
def bytesAt (s : FileState) (block blockOffset n : Nat) : Option Bytes :=
  (s.blocks[block]?).bind fun b => sliceOf b blockOffset n

/-- The loop of `Read`, with what it copies to the scratch space. -/
def readLoop (s : FileState) : Nat → Nat → Nat → Nat → Option Bytes
  | 0, _, _, bytesToCopy => if bytesToCopy = 0 then some [] else none
  | rounds + 1, block, blockOffset, bytesToCopy =>
    if 0 < bytesToCopy then
      let avail := kBlockSize - blockOffset
      let avail := if bytesToCopy < avail then bytesToCopy else avail
      (s.bytesAt block blockOffset avail).bind fun dst =>
        (readLoop s rounds (block + 1) 0 (bytesToCopy - avail)).map fun rest => dst ++ rest
    else some []

/-- `Read`: the slice that is returned. Every round of the loop copies a byte or more. -/
def read (s : FileState) (offset n : Nat) : Option (Except Status Bytes) :=
  if s.size < offset then some (.error (.ioError "Offset greater than file size."))
  else
    let available := s.size - offset
    let n := if available < n then available else n
    if n = 0 then some (.ok [])
    else
      let block := offset / kBlockSize
      let blockOffset := offset % kBlockSize
      if n ≤ kBlockSize - blockOffset then (s.bytesAt block blockOffset n).map .ok
      else (s.readLoop n block blockOffset n).map .ok

section Append

variable (fresh : Nat → Fin kBlockSize → UInt8)

/-- The blocks that a round of `Append` has; the bytes of a new one are whatever was there. -/
def openBlocks (s : FileState) : List Bytes :=
  if s.size % kBlockSize ≠ 0 then s.blocks
  else s.blocks ++ [List.ofFn (fresh s.blocks.length)]

/-- The number of bytes that a round of `Append` copies. -/
def avail (s : FileState) (srcLen : Nat) : Nat :=
  let avail := if s.size % kBlockSize ≠ 0 then kBlockSize - s.size % kBlockSize else kBlockSize
  if srcLen < avail then srcLen else avail

theorem avail_eq (s : FileState) (srcLen : Nat) :
    s.avail srcLen = min srcLen (kBlockSize - s.size % kBlockSize) := by
  have hlt : s.size % kBlockSize < kBlockSize := Nat.mod_lt _ (by decide)
  simp only [avail]
  split_ifs
  all_goals omega

/-- `Append`. -/
def append (s : FileState) (data : Bytes) : Option FileState :=
  if 0 < data.length then
    let blocks := s.openBlocks fresh
    let avail := s.avail data.length
    (blocks.getLast?).bind fun back =>
      (memcpyTo back (s.size % kBlockSize) (data.take avail)).bind fun back =>
        append ⟨blocks.dropLast ++ [back], s.size + avail⟩ (data.drop avail)
  else some s
  termination_by data.length
  decreasing_by
    rw [List.length_drop, avail_eq]
    have hlt : s.size % kBlockSize < kBlockSize := Nat.mod_lt _ (by decide)
    omega

/-- Calls of `Append`, one after the other. -/
def appendAll (s : FileState) (data : List Bytes) : Option FileState :=
  data.foldlM (fun s src => s.append fresh src) s

end Append

/-- The blocks hold the contents: as many of them as are needed, all of one size, and the contents
in front. -/
structure Holds (s : FileState) (contents : Bytes) : Prop where
  size_eq : s.size = contents.length
  full : ∀ b ∈ s.blocks, b.length = kBlockSize
  room : s.size ≤ s.blocks.length * kBlockSize
  needed : s.blocks.length * kBlockSize < s.size + kBlockSize
  take_eq : s.blocks.flatten.take s.size = contents

theorem holds_new : new.Holds [] where
  size_eq := rfl
  full _ hb := absurd hb List.not_mem_nil
  room := Nat.zero_le _
  needed := by decide
  take_eq := rfl

variable {s : FileState} {contents : Bytes}

section Fill

/-- The blocks of a round, with the last one that has room for more. -/
structure Opened (s : FileState) (contents : Bytes) (front : List Bytes) (last : Bytes) : Prop where
  full : ∀ b ∈ front, b.length = kBlockSize
  length_last : last.length = kBlockSize
  size_eq : s.size = front.length * kBlockSize + s.size % kBlockSize
  contents_eq : contents = front.flatten ++ last.take (s.size % kBlockSize)

/-- Behind the blocks that are full there is one that is not. -/
theorem Holds.opened (h : s.Holds contents) (fresh : Nat → Fin kBlockSize → UInt8) :
    ∃ front last, s.openBlocks fresh = front ++ [last] ∧ Opened s contents front last := by
  have hroom := h.room
  have hneeded := h.needed
  have htake := h.take_eq
  have hflatten := length_flatten_of_length h.full
  rw [openBlocks]
  split
  · rename_i hpartial
    -- the last block is filled in part
    have hne : s.blocks ≠ [] := by
      intro hnil
      rw [hnil, List.length_nil, Nat.zero_mul] at hroom
      rw [Nat.le_zero.mp hroom] at hpartial
      exact hpartial (Nat.zero_mod _)
    obtain ⟨front, last, hblocks⟩ : ∃ front last, s.blocks = front ++ [last] :=
      ⟨_, _, (List.dropLast_append_getLast hne).symm⟩
    have hfull : ∀ b ∈ front, b.length = kBlockSize := fun b hb =>
      h.full b (by rw [hblocks]; exact List.mem_append_left _ hb)
    have hlast : last.length = kBlockSize := h.full last (by rw [hblocks]; simp)
    have hsize : s.size = front.length * kBlockSize + s.size % kBlockSize := by
      rw [hblocks, List.length_append, List.length_singleton] at hroom hneeded
      unfold kBlockSize at *
      omega
    refine ⟨front, last, hblocks, hfull, hlast, hsize, ?_⟩
    rw [hblocks, List.flatten_append, List.flatten_singleton, hsize,
      ← length_flatten_of_length hfull, List.take_length_add_append] at htake
    exact htake.symm
  · rename_i hwhole
    rw [not_not] at hwhole
    have hsize : s.size = s.blocks.length * kBlockSize := by
      unfold kBlockSize at *
      omega
    refine ⟨s.blocks, _, rfl, h.full, List.length_ofFn, by omega, ?_⟩
    rw [hwhole, List.take_zero, List.append_nil, ← htake, hsize, ← hflatten, List.take_length]

/-- A round of `Append` copies bytes behind the contents, inside the last block. -/
theorem Opened.fill {front : List Bytes} {last : Bytes} (h : Opened s contents front last)
    {src : Bytes} (hpos : 0 < src.length)
    (hsrc : src.length ≤ kBlockSize - s.size % kBlockSize) :
    ∃ back, memcpyTo last (s.size % kBlockSize) src = some back ∧
      Holds ⟨front ++ [back], s.size + src.length⟩ (contents ++ src) := by
  have hlt : s.size % kBlockSize < kBlockSize := Nat.mod_lt _ (by decide)
  have hsize := h.size_eq
  have hlast := h.length_last
  have hfront := length_flatten_of_length h.full
  have hcontents := h.contents_eq
  generalize s.size % kBlockSize = offset at hsrc hlt hsize hcontents
  have hfits : offset + src.length ≤ last.length := by omega
  have hlength : (last.take offset).length = offset := List.length_take_of_le (by omega)
  refine ⟨_, if_pos hfits, ?_, ?_, ?_, ?_, ?_⟩
  · simp only
    rw [List.length_append, hcontents, List.length_append, hlength, hfront, hsize]
  · intro b hb
    rcases List.mem_append.mp hb with hb | hb
    · exact h.full b hb
    · rw [List.mem_singleton.mp hb, List.length_append, List.length_append, List.length_drop,
        hlength]
      omega
  · simp only [List.length_append, List.length_singleton]
    unfold kBlockSize at *
    omega
  · simp only [List.length_append, List.length_singleton]
    unfold kBlockSize at *
    omega
  · -- what is behind the copied bytes is not of the contents
    have hjoin : (front ++ [last.take offset ++ (src ++ last.drop (offset + src.length))]).flatten =
        contents ++ src ++ last.drop (offset + src.length) := by
      rw [List.flatten_append, List.flatten_singleton, hcontents]
      simp only [List.append_assoc]
    have hcount : s.size + src.length = (contents ++ src).length := by
      rw [List.length_append, hcontents, List.length_append, hlength, hfront, hsize]
    simp only
    rw [hjoin, hcount, List.take_left]

/-- `Append` ends, with the data behind the contents. -/
theorem Holds.append (h : s.Holds contents) (fresh : Nat → Fin kBlockSize → UInt8)
    (data : Bytes) : ∃ s', s.append fresh data = some s' ∧ s'.Holds (contents ++ data) := by
  induction hn : data.length using Nat.strongRecOn generalizing s contents data with
  | ind n ih =>
    rw [FileState.append]
    split
    · rename_i hpos
      have hlt : s.size % kBlockSize < kBlockSize := Nat.mod_lt _ (by decide)
      have havail := s.avail_eq data.length
      obtain ⟨front, last, hblocks, hopened⟩ := h.opened fresh
      have hlength : (data.take (s.avail data.length)).length = s.avail data.length :=
        List.length_take_of_le (by omega)
      obtain ⟨back, hcopy, hnext⟩ := @Opened.fill _ _ _ _ hopened
        (data.take (s.avail data.length)) (by omega) (by omega)
      obtain ⟨s', hrest, hholds⟩ := ih _ (by rw [List.length_drop]; omega) hnext
        (data.drop (s.avail data.length)) rfl
      refine ⟨s', ?_, ?_⟩
      · simp only [hblocks, List.getLast?_concat, Option.bind_some, List.dropLast_concat, hcopy]
        rw [← hrest, hlength]
      · rwa [List.append_assoc, List.take_append_drop] at hholds
    · rename_i hnone
      have hnil : data = [] := List.length_eq_zero_iff.mp (by omega)
      exact ⟨s, rfl, by rwa [hnil, List.append_nil]⟩

theorem Holds.appendAll (h : s.Holds contents) (fresh : Nat → Fin kBlockSize → UInt8)
    (data : List Bytes) :
    ∃ s', s.appendAll fresh data = some s' ∧ s'.Holds (contents ++ data.flatten) := by
  induction data generalizing s contents with
  | nil => exact ⟨s, rfl, by rwa [List.flatten_nil, List.append_nil]⟩
  | cons src data ih =>
    obtain ⟨next, happend, hnext⟩ := h.append fresh src
    obtain ⟨s', hrest, hholds⟩ := ih hnext
    refine ⟨s', ?_, ?_⟩
    · rw [FileState.appendAll, List.foldlM_cons, happend]
      exact hrest
    · rwa [List.append_assoc, ← List.flatten_cons] at hholds

end Fill

/-- Bytes inside one block are those of the contents. -/
theorem Holds.bytesAt (h : s.Holds contents) {block blockOffset n : Nat} (hpos : 0 < n)
    (hn : blockOffset + n ≤ kBlockSize) (hsize : block * kBlockSize + blockOffset + n ≤ s.size) :
    s.bytesAt block blockOffset n =
      some ((contents.drop (block * kBlockSize + blockOffset)).take n) := by
  have hroom := h.room
  have hblock : block < s.blocks.length := by
    unfold kBlockSize at *
    omega
  have hlength := h.full _ (List.getElem_mem hblock)
  rw [FileState.bytesAt, List.getElem?_eq_getElem hblock, Option.bind_some, sliceOf,
    if_pos (by omega), ← take_drop_of_length h.full hblock hn, ← h.take_eq, List.drop_take,
    List.take_take, Nat.min_eq_left (by omega)]

theorem readLoop_zero (s : FileState) (rounds block blockOffset : Nat) :
    s.readLoop rounds block blockOffset 0 = some [] := by
  cases rounds with
  | zero => rfl
  | succ rounds => rfl

/-- The loop goes on from block to block. -/
theorem Holds.readLoop (h : s.Holds contents) {rounds block blockOffset n : Nat}
    (hrounds : n ≤ rounds) (hoffset : blockOffset < kBlockSize)
    (hsize : block * kBlockSize + blockOffset + n ≤ s.size) :
    s.readLoop rounds block blockOffset n =
      some ((contents.drop (block * kBlockSize + blockOffset)).take n) := by
  induction rounds generalizing block blockOffset n with
  | zero =>
    obtain rfl : n = 0 := by omega
    rfl
  | succ rounds ih =>
    rw [FileState.readLoop]
    split
    · rename_i hpos
      have havail : (if n < kBlockSize - blockOffset then n else kBlockSize - blockOffset) =
          min n (kBlockSize - blockOffset) := by
        split_ifs
        all_goals omega
      simp only [havail]
      generalize havail' : min n (kBlockSize - blockOffset) = avail
      rw [h.bytesAt (by omega) (by omega) (by omega), Option.bind_some]
      rcases Nat.lt_or_ge avail n with hlt | hge
      · -- the block is read to its end
        have hend : (block + 1) * kBlockSize + 0 = block * kBlockSize + blockOffset + avail := by
          rw [Nat.add_mul]
          omega
        have hsplit : ∀ l : Bytes, l.take n = l.take avail ++ (l.drop avail).take (n - avail) := by
          intro l
          rw [← List.take_add, Nat.add_sub_cancel' hlt.le]
        rw [ih (by omega) (by decide) (by omega), Option.map_some, hend, hsplit, List.drop_drop]
      · obtain rfl : avail = n := by omega
        rw [Nat.sub_self, readLoop_zero, Option.map_some, List.append_nil]
    · obtain rfl : n = 0 := by omega
      rfl

/-- A read behind the end is an error, any other one gives the bytes that are there. -/
theorem Holds.read (h : s.Holds contents) (offset n : Nat) : s.read offset n =
    some (if contents.length < offset then .error (.ioError "Offset greater than file size.")
      else .ok ((contents.take (min (offset + n) contents.length)).drop offset)) := by
  rw [FileState.read, h.size_eq]
  split
  · rfl
  · rename_i hinside
    simp only
    have havailable : (if contents.length - offset < n then contents.length - offset else n) =
        min (offset + n) contents.length - offset := by
      split_ifs
      all_goals omega
    rw [havailable, List.drop_take]
    generalize hk : min (offset + n) contents.length - offset = k
    have hplace := Nat.div_add_mod' offset kBlockSize
    have hlt : offset % kBlockSize < kBlockSize := Nat.mod_lt _ (by decide)
    have hsize := h.size_eq
    split
    · rename_i hzero
      rw [hzero, List.take_zero]
    · split
      · rw [h.bytesAt (by omega) (by omega) (by omega), hplace]
        rfl
      · rw [h.readLoop le_rfl hlt (by omega), hplace]
        rfl

/-- After any calls of `Append` a read gives an error exactly behind the end of all the data, and
otherwise the bytes of the data that are asked for and there. No call accesses a block that is not
there, or a byte outside of a block. -/
theorem read_appended (fresh : Nat → Fin kBlockSize → UInt8) (data : List Bytes) :
    ∃ s, new.appendAll fresh data = some s ∧ s.size = data.flatten.length ∧
      ∀ offset n, s.read offset n =
        some (if data.flatten.length < offset then
            .error (.ioError "Offset greater than file size.")
          else .ok ((data.flatten.take (min (offset + n) data.flatten.length)).drop offset)) := by
  obtain ⟨s, happend, hholds⟩ := holds_new.appendAll fresh data
  rw [List.nil_append] at hholds
  exact ⟨s, happend, hholds.size_eq, hholds.read⟩

end FileState

end WiscKey
