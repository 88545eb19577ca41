import WiscKey.Library.OrderedSet
import WiscKey.Library.Segments
import WiscKey.Table.BlockSafety
import Mathlib.Data.List.Induction

/-!
# Building a block

Each key is stored without the prefix that it shares with the key in front, except at a restart
point after every so many entries. The finished block has an entry for each added key, and its
restart points are places of entries that share nothing.
-/

namespace WiscKey

/-- `BlockBuilder`. -/
structure BlockBuilder where
  buffer : Bytes
  restarts : List Nat
  counter : Nat
  finished : Bool
  lastKey : Bytes
  deriving DecidableEq, Repr

/-- The length of the common prefix of two keys. -/
def sharedLength : Bytes → Bytes → Nat
  | a :: l, b :: m => if a = b then sharedLength l m + 1 else 0
  | _, _ => 0

/-- An entry of a block, with the length of the prefix that it does not store. -/
structure BlockRow where
  shared : Nat
  key : Bytes
  value : Bytes
  deriving DecidableEq, Repr

/-- The bytes of an entry: three lengths in 32 bits, the rest of the key, and the value. -/
def BlockRow.bytes (r : BlockRow) : Bytes :=
  encodeVarint32 (r.shared % 2 ^ 32) ++
    (encodeVarint32 ((r.key.length - r.shared) % 2 ^ 32) ++
      (encodeVarint32 (r.value.length % 2 ^ 32) ++ (r.key.drop r.shared ++ r.value)))

namespace BlockBuilder

/-- The constructor, and `Reset`. -/
def init : BlockBuilder := ⟨[], [0], 0, false, []⟩

/-- `Add`; none where an assertion fails. -/
def add (cmp : Comparator) (interval : Nat) (b : BlockBuilder) (key value : Bytes) :
    Option BlockBuilder :=
  if b.finished = true ∨ interval < b.counter ∨
      ¬ (b.buffer = [] ∨ cmp.compare key b.lastKey = .gt) then none
  else
    let shared := if b.counter < interval then sharedLength b.lastKey key else 0
    let restarts := if b.counter < interval then b.restarts
      else b.restarts ++ [b.buffer.length % 2 ^ 32]
    let counter := if b.counter < interval then b.counter else 0
    some ⟨b.buffer ++ (BlockRow.mk shared key value).bytes, restarts, counter + 1, b.finished,
      b.lastKey.take shared ++ key.drop shared⟩

/-- `Finish`. -/
def finish (b : BlockBuilder) : Bytes :=
  b.buffer ++ (b.restarts.flatMap encodeFixed32 ++ encodeFixed32 (b.restarts.length % 2 ^ 32))

/-- The block of some entries. -/
def build (cmp : Comparator) (interval : Nat) (entries : List (Bytes × Bytes)) : Option Bytes :=
  (entries.foldlM (fun (b : BlockBuilder) e => b.add cmp interval e.1 e.2) init).map finish

end BlockBuilder

section Shared

theorem sharedLength_le (l m : Bytes) :
    sharedLength l m ≤ l.length ∧ sharedLength l m ≤ m.length := by
  induction l generalizing m with
  | nil => exact ⟨Nat.zero_le _, Nat.zero_le _⟩
  | cons a l ih =>
    cases m with
    | nil => exact ⟨Nat.zero_le _, Nat.zero_le _⟩
    | cons b m =>
      rw [sharedLength]
      obtain ⟨hl, hm⟩ := ih m
      split_ifs
      · exact ⟨Nat.succ_le_succ hl, Nat.succ_le_succ hm⟩
      · exact ⟨Nat.zero_le _, Nat.zero_le _⟩

theorem take_sharedLength (l m : Bytes) :
    l.take (sharedLength l m) = m.take (sharedLength l m) := by
  induction l generalizing m with
  | nil => rfl
  | cons a l ih =>
    cases m with
    | nil => rfl
    | cons b m =>
      rw [sharedLength]
      split_ifs with hab
      · rw [List.take_succ_cons, List.take_succ_cons, ih m, hab]
      · rfl

/-- What `Add` keeps as the last key is the key. -/
theorem take_append_drop_sharedLength (l m : Bytes) :
    l.take (sharedLength l m) ++ m.drop (sharedLength l m) = m := by
  rw [take_sharedLength, List.take_append_drop]

end Shared

/-- Where the entry `i` starts, in bytes. -/
def rowStart (rows : List BlockRow) (i : Nat) : Nat := segmentStart (rows.map BlockRow.bytes) i

/-- Entries as a builder lays them out, and which of them are at restart points. -/
structure RowsOk (rows : List BlockRow) (points : List Nat) : Prop where
  first : points.head? = some 0
  increasing : points.Pairwise (· < ·)
  inside : ∀ r ∈ points, r < rows.length ∨ rows = [] ∧ r = 0
  restart : ∀ r ∈ points, ∀ h : r < rows.length, rows[r].shared = 0
  shared : ∀ (i : Nat) (h : i + 1 < rows.length), rows[i + 1].shared ≤ rows[i].key.length ∧
    rows[i].key.take rows[i + 1].shared = rows[i + 1].key.take rows[i + 1].shared
  le_length : ∀ r ∈ rows, r.shared ≤ r.key.length

section Rows

variable {rows : List BlockRow} {points : List Nat} {row : BlockRow}

theorem rowStart_append {i : Nat} (hi : i ≤ rows.length) :
    rowStart (rows ++ [row]) i = rowStart rows i := by
  rw [rowStart, List.map_append, segmentStart_append (by rwa [List.length_map]), rowStart]

theorem rowStart_length (rows : List BlockRow) :
    rowStart rows rows.length = (rows.map BlockRow.bytes).flatten.length := by
  rw [rowStart, ← segmentStart_length, List.length_map]

/-- One more entry, which shares a prefix of the last key, or nothing if it is the first. -/
theorem RowsOk.concat (h : RowsOk rows points) (hle : row.shared ≤ row.key.length)
    (hfirst : rows = [] → row.shared = 0)
    (hshared : ∀ last, rows.getLast? = some last → row.shared ≤ last.key.length ∧
      last.key.take row.shared = row.key.take row.shared) : RowsOk (rows ++ [row]) points where
  first := h.first
  increasing := h.increasing
  inside r hr := by
    rw [List.length_append, List.length_singleton]
    rcases h.inside r hr with hlt | ⟨-, rfl⟩
    · exact .inl (by omega)
    · exact .inl (Nat.succ_pos _)
  restart r hr hlt := by
    rcases h.inside r hr with hlt' | ⟨rfl, rfl⟩
    · rw [List.getElem_append_left hlt']
      exact h.restart r hr hlt'
    · exact hfirst rfl
  shared i hi := by
    rw [List.length_append, List.length_singleton] at hi
    rw [List.getElem_append_left (by omega : i < rows.length)]
    rcases Nat.lt_or_ge (i + 1) rows.length with hlt | hge
    · rw [List.getElem_append_left hlt]
      exact h.shared i hlt
    · have hlast : rows.getLast? = some rows[i] := by
        rw [List.getLast?_eq_getElem?, List.getElem?_eq_getElem (by omega)]
        simp only [Option.some.injEq]
        congr 1
        omega
      rw [List.getElem_append_right hge, List.getElem_singleton]
      exact hshared _ hlast
  le_length r hr := by
    rcases List.mem_append.mp hr with hr | hr
    · exact h.le_length r hr
    · rw [List.mem_singleton.mp hr]
      exact hle

/-- The next entry is a restart point. -/
theorem RowsOk.point (h : RowsOk rows points) (hrows : rows ≠ []) (hle : row.shared = 0) :
    RowsOk (rows ++ [row]) (points ++ [rows.length]) := by
  have hconcat : RowsOk (rows ++ [row]) points :=
    h.concat (by omega) (fun _ => hle) (by simp [hle])
  refine ⟨?_, ?_, ?_, ?_, hconcat.shared, hconcat.le_length⟩
  · rw [List.head?_append, h.first]
    rfl
  · refine List.pairwise_append.mpr ⟨h.increasing, List.pairwise_singleton .., ?_⟩
    intro r hr r' hr'
    rw [List.mem_singleton.mp hr']
    exact (h.inside r hr).resolve_right fun hnil => hrows hnil.1
  · intro r hr
    rcases List.mem_append.mp hr with hr | hr
    · exact hconcat.inside r hr
    · rw [List.mem_singleton.mp hr]
      exact .inl (by simp)
  · intro r hr hlt
    rcases List.mem_append.mp hr with hr | hr
    · exact hconcat.restart r hr hlt
    · obtain rfl := List.mem_singleton.mp hr
      rw [List.getElem_append_right le_rfl]
      simpa using hle

end Rows

namespace BlockBuilder

/-- What a builder holds after some entries. -/
structure Builds (interval : Nat) (b : BlockBuilder) (rows : List BlockRow) (points : List Nat) :
    Prop where
  buffer : b.buffer = (rows.map BlockRow.bytes).flatten
  restarts : b.restarts = points.map fun r => rowStart rows r % 2 ^ 32
  finished : b.finished = false
  counter : b.counter ≤ interval
  fresh : rows = [] → b.counter = 0
  lastKey : b.lastKey = (rows.getLast?.map BlockRow.key).getD []
  ok : RowsOk rows points

theorem builds_init (interval : Nat) : Builds interval init [] [0] where
  buffer := rfl
  restarts := rfl
  finished := rfl
  counter := Nat.zero_le _
  fresh _ := rfl
  lastKey := rfl
  ok := ⟨rfl, List.pairwise_singleton .., by simp, nofun, nofun, nofun⟩

theorem Builds.restarts_concat {interval : Nat} {b : BlockBuilder} {rows : List BlockRow}
    {points : List Nat} (h : Builds interval b rows points) (row : BlockRow) :
    b.restarts = points.map fun r => rowStart (rows ++ [row]) r % 2 ^ 32 := by
  rw [h.restarts]
  refine List.map_congr_left fun r hr => ?_
  have hle : r ≤ rows.length := by
    rcases h.ok.inside r hr with hlt | ⟨rfl, rfl⟩
    · exact Nat.le_of_lt hlt
    · exact le_rfl
  rw [rowStart_append hle]

/-- `Add` lays one more entry behind the others. -/
theorem Builds.add {cmp : Comparator} {interval : Nat} {b : BlockBuilder}
    {rows : List BlockRow} {points : List Nat} (h : Builds interval b rows points)
    (hinterval : 1 ≤ interval) {key value : Bytes}
    (hkey : ∀ r ∈ rows, cmp.compare r.key key = .lt) :
    ∃ b' row points', b.add cmp interval key value = some b' ∧ row.key = key ∧
      row.value = value ∧ Builds interval b' (rows ++ [row]) points' := by
  have hlast : ∀ last, rows.getLast? = some last → b.lastKey = last.key := by
    intro last hrow
    rw [h.lastKey, hrow]
    rfl
  have hnil : rows = [] → b.lastKey = [] := by
    rintro rfl
    exact h.lastKey
  have hgt : b.buffer = [] ∨ cmp.compare key b.lastKey = .gt := by
    rcases List.eq_nil_or_concat rows with rfl | ⟨front, last, rfl⟩
    · exact .inl h.buffer
    · rw [hlast last (by simp)]
      exact .inr (Std.OrientedCmp.gt_of_lt (hkey last (by simp)))
  have hasserts : ¬ (b.finished = true ∨ interval < b.counter ∨
      ¬ (b.buffer = [] ∨ cmp.compare key b.lastKey = .gt)) := by
    rintro (hfinished | hcounter | hnot)
    · rw [h.finished] at hfinished
      cases hfinished
    · exact absurd h.counter (Nat.not_le.mpr hcounter)
    · exact hnot hgt
  have hbuffer : ∀ row : BlockRow, b.buffer ++ row.bytes =
      ((rows ++ [row]).map BlockRow.bytes).flatten := by
    intro row
    simp [h.buffer]
  rw [BlockBuilder.add, if_neg hasserts]
  rcases Nat.lt_or_ge b.counter interval with hlt | hge
  · obtain ⟨hlastLe, hkeyLe⟩ := sharedLength_le b.lastKey key
    simp only [if_pos hlt]
    refine ⟨_, ⟨sharedLength b.lastKey key, key, value⟩, points, rfl, rfl, rfl, hbuffer _,
      h.restarts_concat _, h.finished, hlt, ?_, ?_, ?_⟩
    · simp
    · simp [take_append_drop_sharedLength]
    · refine h.ok.concat hkeyLe (fun hrows => ?_) (fun last hrow => ?_)
      · rw [hnil hrows]
        rfl
      · rw [← hlast last hrow]
        exact ⟨hlastLe, take_sharedLength _ _⟩
  · have hrows : rows ≠ [] := by
      intro hrows
      have hzero := h.fresh hrows
      omega
    simp only [if_neg (Nat.not_lt.mpr hge)]
    refine ⟨_, ⟨0, key, value⟩, points ++ [rows.length], rfl, rfl, rfl, hbuffer _, ?_,
      h.finished, hinterval, ?_, ?_, h.ok.point hrows rfl⟩
    · rw [List.map_append, ← h.restarts_concat, List.map_singleton, rowStart_append le_rfl,
        rowStart_length, h.buffer]
    · simp
    · simp

/-- The builder lays out all entries. -/
theorem exists_builds {cmp : Comparator} {interval : Nat} (hinterval : 1 ≤ interval)
    {entries : List (Bytes × Bytes)} (h : Increasing cmp.compare (entries.map Prod.fst)) :
    ∃ b rows points, entries.foldlM (fun (b : BlockBuilder) e => b.add cmp interval e.1 e.2) init =
        some b ∧ rows.map (fun r => (r.key, r.value)) = entries ∧
      Builds interval b rows points := by
  induction entries using List.reverseRecOn with
  | nil => exact ⟨init, [], [0], rfl, rfl, builds_init interval⟩
  | append_singleton entries e ih =>
    rw [List.map_append, Increasing, List.pairwise_append] at h
    obtain ⟨hfront, -, hcross⟩ := h
    obtain ⟨b, rows, points, hrun, hrows, hbuilds⟩ := ih hfront
    have hkeys : rows.map BlockRow.key = entries.map Prod.fst := by
      rw [← hrows, List.map_map]
      rfl
    obtain ⟨b', row, points', hadd, hkey, hvalue, hbuilds'⟩ :=
      @Builds.add cmp _ _ _ _ hbuilds hinterval e.1 e.2 fun r hr =>
        hcross r.key (hkeys ▸ List.mem_map_of_mem hr) e.1 (by simp)
    refine ⟨b', rows ++ [row], points', ?_, ?_, hbuilds'⟩
    · rw [List.foldlM_append, hrun]
      simpa using hadd
    · rw [List.map_append, hrows, List.map_singleton, hkey, hvalue]

end BlockBuilder

namespace Block

/-- A block with entries one behind the other, and restart points at some of them. -/
structure Laid (b : Block) (rows : List BlockRow) (points : List Nat) : Prop where
  sound : b.Sound
  accepted : 4 ≤ b.size
  size : b.data.length < 2 ^ 32
  limit : b.restartOffset = rowStart rows rows.length
  num : b.num = points.length
  point : ∀ (i : Nat) (h : i < points.length), b.getRestartPoint i = some (rowStart rows points[i])
  front : (rows.map BlockRow.bytes).flatten <+: b.data
  ok : RowsOk rows points

end Block

section Finish

variable {rows : List BlockRow} {points : List Nat} {interval : Nat} {b : BlockBuilder}

theorem rowStart_le (rows : List BlockRow) (i : Nat) :
    rowStart rows i ≤ (rows.map BlockRow.bytes).flatten.length := segmentStart_le _ i

/-- A finished block that is shorter than 2^32 bytes is laid out as it was built. -/
theorem laid_finish (h : BlockBuilder.Builds interval b rows points)
    (hsmall : b.finish.length < 2 ^ 32) : (Block.new b.finish).Laid rows points := by
  have hpos : 0 < points.length := by
    have hfirst := h.ok.first
    cases points with
    | nil => cases hfirst
    | cons r points => exact Nat.succ_pos _
  have hlen : b.restarts.length = points.length := by rw [h.restarts, List.length_map]
  have hlength : b.finish.length = b.buffer.length + points.length * 4 + 4 := by
    rw [BlockBuilder.finish, List.length_append, List.length_append, length_fixed32Array, hlen,
      encodeFixed32, length_encodeFixed]
    omega
  have hnum : Block.numRestarts b.finish = points.length := by
    have hdrop : b.finish.drop (b.finish.length - 4) = encodeFixed32 points.length := by
      have hsplit : b.finish = (b.buffer ++ b.restarts.flatMap encodeFixed32) ++
          encodeFixed32 points.length := by
        rw [BlockBuilder.finish, hlen, Nat.mod_eq_of_lt (by omega), List.append_assoc]
      have hfront : b.finish.length - 4 =
          (b.buffer ++ b.restarts.flatMap encodeFixed32).length := by
        rw [hlength, List.length_append, length_fixed32Array, hlen]
        omega
      rw [hfront]
      conv_lhs => rw [hsplit]
      exact List.drop_left
    rw [Block.numRestarts, hdrop, ← List.append_nil (encodeFixed32 _),
      decodeFixed32_encodeFixed32 (by omega)]
  have hnew : Block.new b.finish = ⟨b.finish, b.finish.length, b.buffer.length⟩ := by
    rw [Block.new, if_neg (by omega), hnum, if_neg (by omega), Nat.mod_eq_of_lt (by omega),
      Nat.mod_eq_of_lt (by omega)]
    congr 1
    omega
  have hsound : (Block.new b.finish).Sound := by
    rw [hnew]
    exact ⟨by rw [Block.num, hnum]; exact hpos, by simp only; omega,
      by rw [Block.num, hnum]; simp only; omega⟩
  refine ⟨hsound, by rw [hnew]; simp only; omega, by rw [hnew]; exact hsmall, ?_, ?_,
    fun i hi => ?_, ?_, h.ok⟩
  · rw [hnew, rowStart_length, ← h.buffer]
  · rw [hnew, Block.num, hnum]
  · have hnumb : (Block.new b.finish).num = points.length := by rw [hnew, Block.num, hnum]
    have hwords : ∀ v ∈ b.restarts, v < 2 ^ 32 := by
      rw [h.restarts]
      exact List.forall_mem_map.mpr fun r _ => Nat.mod_lt _ (by decide)
    have hi' : i < b.restarts.length := hlen ▸ hi
    have hplace : b.restarts[i] = rowStart rows points[i] := by
      have hle := rowStart_le rows points[i]
      rw [← h.buffer] at hle
      simp only [h.restarts, List.getElem_map]
      exact Nat.mod_eq_of_lt (by omega)
    rw [Block.getRestartPoint, if_pos (hnumb ▸ hi), hnew, Block.read_eq (by simp only; omega),
      Option.map_some, Option.some.injEq, decodeFixed32, List.take_take, Nat.min_self]
    simp only
    have hread := decodeFixed32_array hwords hi' (encodeFixed32 (b.restarts.length % 2 ^ 32))
    rw [hplace, decodeFixed32] at hread
    rw [← hread, BlockBuilder.finish, List.drop_length_add_append]
  · rw [hnew, ← h.buffer]
    exact List.prefix_append ..

end Finish

end WiscKey
