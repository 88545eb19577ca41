import Mathlib.Data.Finset.Basic
import WiscKey.ValueLog.Refinement

/-!
# Where the value log is written

A record of the value log is a key field and a text field. A set writes its record at the
position of the log file, and a get that finds its key leaves that position behind the record
it read: the log grows at its end only as long as no set follows such a get of an older record.
-/

namespace WiscKey

/-- The bytes of a record: its key field and its text field. -/
def recordSize : Nat := 2 * sizeofString

/-- A call on an open store, or a garbage collection of its log. -/
inductive LogCall
  | set (env : CallEnv) (key value accvalue : Bytes)
  | get (env : CallEnv) (key value accvalue : Bytes)
  | del (env : CallEnv) (key value accvalue : Bytes)
  | gc (env : CallEnv) (args : Args)

/-- The offset that a get of the key reads at. -/
def recordedOffset (wk : WK) (key : Bytes) : Option Nat := do
  let vtableStrAddr ← leveldbGet wk.lab2 key
  let valueAddr ← wk.lab2.vtable.deref (strToAddr vtableStrAddr)
  let offset ← stol (disassemble [] [] valueAddr.value).1
  if 0 ≤ offset then some offset.toNat else none

/-- The bytes that a set writes lie in none of the records whose offset is still recorded. -/
def SparesRecords (wk : WK) (records : List (Bytes × Nat)) : Prop :=
  ∀ r ∈ records, recordedOffset wk r.1 = some r.2 →
    wk.logfile.pos + recordSize ≤ r.2 ∨ r.2 + recordSize ≤ wk.logfile.pos

/-- Every call of the run leaves the recorded records alone, and every set writes at the end of the
log and records where its own record starts. `records` are the records written before. -/
def AppendOnly (wk : WK) (records : List (Bytes × Nat)) : List LogCall → Prop
  | [] => True
  | .set env key value accvalue :: calls =>
    ∀ wk' args', wisckeySet env wk ⟨key, value, accvalue⟩ = some (wk', args') →
      SparesRecords wk records ∧ wk.logfile.pos = wk.logfile.contents.length ∧
        recordedOffset wk' key = some wk.logfile.pos ∧
        AppendOnly wk' ((key, wk.logfile.pos) :: records) calls
  | .get env key value accvalue :: calls =>
    ∀ wk' args' r, wisckeyGet env wk ⟨key, value, accvalue⟩ = some (wk', args', r) →
      wk'.logfile.contents = wk.logfile.contents ∧ AppendOnly wk' records calls
  | .del env key value accvalue :: calls =>
    ∀ wk' args', wisckeyDel env wk ⟨key, value, accvalue⟩ = some (wk', args') →
      wk'.logfile.contents = wk.logfile.contents ∧ AppendOnly wk' records calls
  | .gc env args :: calls =>
    ∀ wk' args', doLogfileGC env wk args = some (wk', args') →
      wk'.logfile.contents = wk.logfile.contents ∧ AppendOnly wk' records calls

/-- No set of the run has the store's own key `head`, and before each the last get since the
previous set that found its key, if there is one, asked for the key set last. `live` are the keys
that were set and not deleted since, `last` is the key set last, and `moved` tells of a get that
asked for another. -/
def SetsFollowSets (live : Finset Bytes) (last : Option Bytes) (moved : Bool) :
    List LogCall → Prop
  | [] => True
  | .set _ key _ _ :: calls => key ≠ headkey ∧ moved = false ∧
      SetsFollowSets (insert headkey (insert key live)) (some key) false calls
  | .get _ key _ _ :: calls =>
    if key ∈ live then
      -- the text under `head` is no offset and ends the run
      key = headkey ∨ SetsFollowSets live last (decide (last ≠ some key)) calls
    else SetsFollowSets live last moved calls
  | .del _ key _ _ :: calls => SetsFollowSets (live.erase key) last moved calls
  | .gc _ _ :: calls => SetsFollowSets live last moved calls

/-- A buffer of a vector, and memory that overlaps none of the table's. -/
def VTable.Avoids (vt : VTable) (a size : Nat) : Prop :=
  ∀ key e, vt.lookup key = some e →
    a + size ≤ e.data ∨ e.data + e.capacity * sizeofValueInfo ≤ a

/-- What `malloc` returns when the vector of a key grows. -/
def VTable.Allocates (vt : VTable) (key : Bytes) (fresh : Nat) : Prop :=
  (vt.entry key).capacity ≤ (vt.entry key).valVec.length →
    vt.Avoids fresh (max 1 (2 * (vt.entry key).capacity) * sizeofValueInfo)

/-- `malloc` hands out memory that is not in use to every set of the run. -/
def Allocates (wk : WK) : List LogCall → Prop
  | [] => True
  | .set env key value accvalue :: calls =>
    wk.lab2.vtable.Allocates key env.freshKey ∧
      (leveldbSet wk.lab2 env.freshKey key
        (vlogValue wk.logfile.pos sizeofString)).vtable.Allocates headkey env.freshHead ∧
      ∀ wk' args', wisckeySet env wk ⟨key, value, accvalue⟩ = some (wk', args') →
        Allocates wk' calls
  | .get env key value accvalue :: calls =>
    ∀ wk' args' r, wisckeyGet env wk ⟨key, value, accvalue⟩ = some (wk', args', r) →
      Allocates wk' calls
  | .del env key value accvalue :: calls =>
    ∀ wk' args', wisckeyDel env wk ⟨key, value, accvalue⟩ = some (wk', args') →
      Allocates wk' calls
  | .gc env args :: calls =>
    ∀ wk' args', doLogfileGC env wk args = some (wk', args') → Allocates wk' calls

/-- Memory is free when it overlaps the buffer of no entry. -/
theorem VTable.avoids_iff {vt : VTable} {a size : Nat} : vt.Avoids a size ↔
    ∀ p ∈ vt.entries, a + size ≤ p.2.data ∨ p.2.data + p.2.capacity * sizeofValueInfo ≤ a :=
  ⟨fun h p hp => h p.1 p.2 (AList.mem_lookup_iff.mpr hp),
    fun h key e he => h ⟨key, e⟩ (AList.mem_lookup_iff.mp he)⟩

instance {vt : VTable} {a size : Nat} : Decidable (vt.Avoids a size) :=
  decidable_of_iff' _ VTable.avoids_iff

instance {vt : VTable} {key : Bytes} {fresh : Nat} : Decidable (vt.Allocates key fresh) :=
  inferInstanceAs (Decidable (_ → _))

/-- A condition on every store that a call returns is one on its result. -/
def decidableReturns {α β : Type} (P : α → Prop) [DecidablePred P] :
    (o : Option (α × β)) → Decidable (∀ a b, o = some (a, b) → P a)
  | none => isTrue (fun _ _ h => nomatch h)
  | some (a, b) => decidable_of_iff (P a) (by simp)

/-- Whether `malloc` did its part can be computed from the run. -/
def Allocates.decidable : (calls : List LogCall) → (wk : WK) → Decidable (Allocates wk calls)
  | [], _ => isTrue trivial
  | .set env key value accvalue :: calls, wk =>
    haveI : ∀ wk, Decidable (Allocates wk calls) := Allocates.decidable calls
    haveI := decidableReturns (fun wk' => Allocates wk' calls)
      (wisckeySet env wk ⟨key, value, accvalue⟩)
    inferInstanceAs (Decidable (_ ∧ _ ∧ _))
  | .get env key value accvalue :: calls, wk =>
    haveI : ∀ wk, Decidable (Allocates wk calls) := Allocates.decidable calls
    match h : wisckeyGet env wk ⟨key, value, accvalue⟩ with
    | none => isTrue (by simp [Allocates, h])
    | some (wk', _, _) => decidable_of_iff (Allocates wk' calls) (by simp [Allocates, h])
  | .del env key value accvalue :: calls, wk =>
    haveI : ∀ wk, Decidable (Allocates wk calls) := Allocates.decidable calls
    decidableReturns (fun wk' => Allocates wk' calls) (wisckeyDel env wk ⟨key, value, accvalue⟩)
  | .gc env args :: calls, wk =>
    haveI : ∀ wk, Decidable (Allocates wk calls) := Allocates.decidable calls
    decidableReturns (fun wk' => Allocates wk' calls) (doLogfileGC env wk args)

instance {wk : WK} {calls : List LogCall} : Decidable (Allocates wk calls) :=
  Allocates.decidable calls wk

namespace VTableEntry

variable (e : VTableEntry) (fresh : Nat) (v : ValueInfo)

@[simp] theorem valVec_pushBack : (e.pushBack fresh v).valVec = e.valVec ++ [v] := by
  unfold pushBack
  split <;> rfl

/-- A vector holds what was pushed behind what it held. -/
theorem length_le_capacity_pushBack (h : e.valVec.length ≤ e.capacity) :
    (e.pushBack fresh v).valVec.length ≤ (e.pushBack fresh v).capacity := by
  unfold pushBack
  split
  · rename_i hlt
    rw [List.length_append]
    exact hlt
  · rename_i hge
    rw [List.length_append, List.length_singleton]
    change e.valVec.length + 1 ≤ max 1 (2 * e.capacity)
    omega

/-- The element at the address of an index is the one with the index. -/
theorem at?_addr {i : Nat} (hi : i < e.valVec.length) : e.at? (e.addr i) = e.valVec[i]? := by
  have hinj : ∀ j, e.addr j = e.addr i → j = i := by
    intro j hj
    unfold addr sizeofValueInfo at hj
    omega
  have hfind : (List.range e.valVec.length).find? (fun j => e.addr j == e.addr i) = some i := by
    rw [List.find?_range_eq_some]
    refine ⟨by simp, List.mem_range.mpr hi, fun j hj => ?_⟩
    simpa using fun heq => hj.ne (hinj j heq)
  rw [at?, hfind]
  rfl

/-- An element of a vector lies in its buffer. -/
theorem mem_buffer_of_at? {a : Nat} (hfits : e.valVec.length ≤ e.capacity)
    (h : (e.at? a).isSome) : e.data ≤ a ∧ a < e.data + e.capacity * sizeofValueInfo := by
  unfold at? at h
  cases hfind : (List.range e.valVec.length).find? fun i => e.addr i == a with
  | none => simp [hfind] at h
  | some i =>
    have haddr : e.addr i = a := by simpa using List.find?_some hfind
    have hi : i < e.valVec.length := List.mem_range.mp (List.mem_of_find?_eq_some hfind)
    subst haddr
    unfold addr sizeofValueInfo
    omega

end VTableEntry

namespace VTable

/-- The vectors of a table fit their buffers, and no two buffers overlap. -/
structure Buffers (vt : VTable) : Prop where
  fits : ∀ key e, vt.lookup key = some e → e.valVec.length ≤ e.capacity
  disjoint : ∀ key key' e e', key ≠ key' → vt.lookup key = some e → vt.lookup key' = some e' →
    e.data + e.capacity * sizeofValueInfo ≤ e'.data ∨
      e'.data + e'.capacity * sizeofValueInfo ≤ e.data

theorem buffers_empty : Buffers ∅ :=
  ⟨(fun _ _ h => nomatch h), (fun _ _ _ _ _ h => nomatch h)⟩

/-- The address of an element finds the element. -/
theorem Buffers.deref {vt : VTable} (h : vt.Buffers) {key : Bytes} {e : VTableEntry}
    (he : vt.lookup key = some e) {i : Nat} {v : ValueInfo} (hi : e.valVec[i]? = some v) :
    vt.deref (e.addr i) = some v := by
  have hlt : i < e.valVec.length := (List.getElem?_eq_some_iff.mp hi).1
  have hat : e.at? (e.addr i) = some v := by rw [e.at?_addr hlt, hi]
  have hbuffer := e.mem_buffer_of_at? (h.fits key e he) (by rw [hat]; rfl)
  have hothers : ∀ p ∈ vt.entries, p.2.at? (e.addr i) = none ∨ p.2.at? (e.addr i) = some v := by
    intro p hp
    have hlookup : vt.lookup p.1 = some p.2 := AList.mem_lookup_iff.mpr hp
    rcases eq_or_ne p.1 key with hkey | hkey
    · rw [hkey, he] at hlookup
      exact .inr (Option.some.inj hlookup ▸ hat)
    · refine .inl (Option.not_isSome_iff_eq_none.mp fun hsome => ?_)
      have hother := p.2.mem_buffer_of_at? (h.fits _ _ hlookup) hsome
      have hdisjoint := h.disjoint _ _ _ _ hkey hlookup he
      omega
  have hmem : (⟨key, e⟩ : Sigma fun _ => VTableEntry) ∈ vt.entries := AList.mem_lookup_iff.mp he
  unfold VTable.deref
  generalize vt.entries = l at hothers hmem
  induction l with
  | nil => cases hmem
  | cons p l ih =>
    rw [List.findSome?_cons]
    rcases hothers p (List.mem_cons_self ..) with hnone | hsome
    · rw [hnone]
      refine ih (fun q hq => hothers q (List.mem_cons_of_mem _ hq)) ?_
      rcases List.mem_cons.mp hmem with rfl | hmem
      · rw [hat] at hnone
        cases hnone
      · exact hmem
    · rw [hsome]

end VTable

/-- What a set of the two stores does. -/
theorem leveldbSet_eq (s : Lab2) (fresh : Nat) (key value : Bytes) :
    ∃ e v, v.value = value ∧ e.valVec = (s.vtable.entry key).valVec ++ [v] ∧
      e.data = ((s.vtable.entry key).pushBack fresh v).data ∧
      e.capacity = ((s.vtable.entry key).pushBack fresh v).capacity ∧
      leveldbSet s fresh key value = ⟨s.vtable.insert key e,
        s.db.insert key (addrToStr (e.addr (s.vtable.entry key).valVec.length))⟩ := by
  unfold leveldbSet leveldbSetLocked
  cases hlookup : s.vtable.lookup key with
  | none =>
    have hentry : s.vtable.entry key = VTableEntry.empty := by rw [VTable.entry, hlookup]; rfl
    let v : ValueInfo := ⟨key, value, false, 1, sizeofString⟩
    refine ⟨{ VTableEntry.empty.pushBack fresh v with latestVer := 1 }, v, rfl, ?_, ?_, ?_, ?_⟩
    · rw [hentry]
      exact VTableEntry.valVec_pushBack ..
    · rw [hentry]
    · rw [hentry]
    · simp only [leveldbSetPut, AList.mem_insert, true_or, if_true]
      rw [VTable.entry, AList.lookup_insert, hentry]
      rfl
  | some e =>
    have hentry : s.vtable.entry key = e := by rw [VTable.entry, hlookup]; rfl
    let v : ValueInfo := ⟨key, value, false, e.latestVer + 1, sizeofString⟩
    refine ⟨{ e with latestVer := e.latestVer + 1 }.pushBack fresh v, v, rfl, ?_, ?_, ?_, ?_⟩
    · rw [hentry]
      exact VTableEntry.valVec_pushBack ..
    · rw [hentry]
      unfold VTableEntry.pushBack
      simp only
      split <;> rfl
    · rw [hentry]
      unfold VTableEntry.pushBack
      simp only
      split <;> rfl
    · simp only [leveldbSetPut, AList.mem_insert, true_or, if_true]
      rw [VTable.entry, AList.lookup_insert, hentry]
      rfl

/-- The key's text is the one that a get reads. -/
def Lab2.Holds (s : Lab2) (key text : Bytes) : Prop :=
  ∃ e i v, s.vtable.lookup key = some e ∧ e.valVec[i]? = some v ∧ v.value = text ∧
    s.db.lookup key = some (addrToStr (e.addr i))

namespace Lab2

variable {s : Lab2} {fresh : Nat} {key other text value : Bytes}

/-- A set makes its key hold its text. -/
theorem holds_leveldbSet : (leveldbSet s fresh key value).Holds key value := by
  obtain ⟨e, v, hvalue, hvec, -, -, hset⟩ := leveldbSet_eq s fresh key value
  rw [hset]
  refine ⟨e, (s.vtable.entry key).valVec.length, v, AList.lookup_insert _, ?_, hvalue,
    AList.lookup_insert _⟩
  rw [hvec, List.getElem?_append_right le_rfl, Nat.sub_self]
  rfl

/-- A set leaves the texts of other keys. -/
theorem Holds.leveldbSet_of_ne (h : s.Holds other text) (hne : other ≠ key) :
    (leveldbSet s fresh key value).Holds other text := by
  obtain ⟨e, v, -, -, -, -, hset⟩ := leveldbSet_eq s fresh key value
  obtain ⟨e', i, v', hlookup, hget, htext, hdb⟩ := h
  rw [hset]
  refine ⟨e', i, v', ?_, hget, htext, ?_⟩
  · rw [AList.lookup_insert_ne hne]
    exact hlookup
  · rw [AList.lookup_insert_ne hne]
    exact hdb

/-- A delete leaves the texts of other keys. -/
theorem Holds.leveldbDel_of_ne (h : s.Holds other text) (hne : other ≠ key) :
    (leveldbDel s key).Holds other text := by
  obtain ⟨e, i, v, hlookup, hget, htext, hdb⟩ := h
  refine ⟨e, i, v, ?_, hget, htext, ?_⟩
  · exact (AList.lookup_erase_ne hne).trans hlookup
  · exact (AList.lookup_erase_ne hne).trans hdb

/-- A delete keeps the buffers apart. -/
theorem buffers_leveldbDel (h : s.vtable.Buffers) : (leveldbDel s key).vtable.Buffers := by
  have hsub : ∀ k e, (leveldbDel s key).vtable.lookup k = some e → s.vtable.lookup k = some e := by
    intro k e hk
    rcases eq_or_ne k key with rfl | hne
    · exact absurd hk (by simp [leveldbDel, leveldbDelErase, leveldbDelDelete])
    · exact (AList.lookup_erase_ne hne).symm.trans hk
  constructor
  · exact fun k e hk => h.fits k e (hsub k e hk)
  · exact fun k k' e e' hne hk hk' => h.disjoint k k' e e' hne (hsub k e hk) (hsub k' e' hk')

/-- A set that is given free memory keeps the buffers apart. -/
theorem buffers_leveldbSet (h : s.vtable.Buffers) (hmalloc : s.vtable.Allocates key fresh) :
    (leveldbSet s fresh key value).vtable.Buffers := by
  obtain ⟨e, v, -, hvec, hdata, hcapacity, hset⟩ := leveldbSet_eq s fresh key value
  have hfits : (s.vtable.entry key).valVec.length ≤ (s.vtable.entry key).capacity := by
    rw [VTable.entry]
    cases hlookup : s.vtable.lookup key with
    | none => exact le_rfl
    | some e => exact h.fits key e hlookup
  have hapart : ∀ key' e', key' ≠ key → s.vtable.lookup key' = some e' →
      e.data + e.capacity * sizeofValueInfo ≤ e'.data ∨
        e'.data + e'.capacity * sizeofValueInfo ≤ e.data := by
    intro key' e' hne hlookup'
    rw [hdata, hcapacity]
    unfold VTableEntry.pushBack
    by_cases hroom : (s.vtable.entry key).valVec.length < (s.vtable.entry key).capacity
    · rw [if_pos hroom]
      cases hlookup : s.vtable.lookup key with
      | none =>
        have hempty : s.vtable.entry key = VTableEntry.empty := by rw [VTable.entry, hlookup]; rfl
        rw [hempty] at hroom
        cases hroom
      | some old =>
        have hold : s.vtable.entry key = old := by rw [VTable.entry, hlookup]; rfl
        rw [hold]
        exact h.disjoint key key' old e' hne.symm hlookup hlookup'
    · rw [if_neg hroom]
      exact hmalloc (Nat.le_of_not_lt hroom) key' e' hlookup'
  rw [hset]
  constructor
  · intro key' e' he'
    rcases eq_or_ne key' key with rfl | hne
    · rw [AList.lookup_insert] at he'
      obtain rfl := Option.some.inj he'
      rw [hvec, hcapacity]
      have hpush := VTableEntry.length_le_capacity_pushBack _ fresh v hfits
      rwa [VTableEntry.valVec_pushBack] at hpush
    · rw [AList.lookup_insert_ne hne] at he'
      exact h.fits key' e' he'
  · intro key₁ key₂ e₁ e₂ hne h₁ h₂
    rcases eq_or_ne key₁ key with rfl | hne₁
    · rw [AList.lookup_insert] at h₁
      rw [AList.lookup_insert_ne hne.symm] at h₂
      obtain rfl := Option.some.inj h₁
      exact hapart key₂ e₂ hne.symm h₂
    · rw [AList.lookup_insert_ne hne₁] at h₁
      rcases eq_or_ne key₂ key with rfl | hne₂
      · rw [AList.lookup_insert] at h₂
        obtain rfl := Option.some.inj h₂
        exact (hapart key₁ e₁ hne₁ h₁).symm
      · rw [AList.lookup_insert_ne hne₂] at h₂
        exact h.disjoint key₁ key₂ e₁ e₂ hne h₁ h₂

end Lab2

section Texts

theorem disassemble_of_notMem (valueOffset token text rest : Bytes) (h : (38 : UInt8) ∉ text) :
    disassemble valueOffset token (text ++ rest) =
      disassemble valueOffset (token ++ text) rest := by
  induction text generalizing token with
  | nil => rw [List.nil_append, List.append_nil]
  | cons c text ih =>
    have hc : c ≠ 38 := fun hc => h (hc ▸ List.mem_cons_self ..)
    rw [List.cons_append, disassemble, ih _ fun hmem => h (List.mem_cons_of_mem _ hmem),
      List.append_assoc]
    · rfl
    · rintro rest' hc' -
      exact hc hc'

theorem notMem_toDecimal (n : Nat) : (38 : UInt8) ∉ toDecimal n := by
  intro h
  exact absurd (isDecimal_of_mem_toDecimal h) (by decide)

/-- The text of a set comes apart into its offset and its length. -/
theorem disassemble_vlogValue (offset size : Nat) :
    disassemble [] [] (vlogValue offset size) = (toDecimal offset, toDecimal size) := by
  have hsize := disassemble_of_notMem (toDecimal offset) [] (toDecimal size) []
    (notMem_toDecimal size)
  rw [List.append_nil] at hsize
  rw [vlogValue, List.append_assoc, disassemble_of_notMem _ _ _ _ (notMem_toDecimal offset)]
  change disassemble ([] ++ toDecimal offset) [] (toDecimal size) = _
  rw [List.nil_append, hsize]
  rfl

/-- A text without a delimiter has no offset. -/
theorem disassemble_toDecimal (n : Nat) :
    disassemble [] [] (toDecimal n) = ([], toDecimal n) := by
  have h := disassemble_of_notMem [] [] (toDecimal n) [] (notMem_toDecimal n)
  rw [List.append_nil] at h
  rw [h]
  rfl

end Texts

namespace WK

variable {wk : WK} {key : Bytes}

theorem recordedOffset_vlogValue (hbuffers : wk.lab2.vtable.Buffers) {offset : Nat}
    (hoffset : offset < 2 ^ 63) (h : wk.lab2.Holds key (vlogValue offset sizeofString)) :
    recordedOffset wk key = some offset := by
  obtain ⟨e, i, v, hlookup, hget, htext, hdb⟩ := h
  have hderef := hbuffers.deref hlookup hget
  simp only [recordedOffset, leveldbGet, hdb, strToAddr_addrToStr, hderef, htext,
    disassemble_vlogValue, stol_toDecimal hoffset, Option.bind_eq_bind, Option.bind_some]
  rw [if_pos (Int.natCast_nonneg _), Int.toNat_natCast]

/-- The text under the store's own key is no offset. -/
theorem recordedOffset_toDecimal (hbuffers : wk.lab2.vtable.Buffers) {n : Nat}
    (h : wk.lab2.Holds key (toDecimal n)) : recordedOffset wk key = none := by
  obtain ⟨e, i, v, hlookup, hget, htext, hdb⟩ := h
  have hderef := hbuffers.deref hlookup hget
  have hstol : stol [] = none := rfl
  simp only [recordedOffset, leveldbGet, hdb, strToAddr_addrToStr, hderef, htext,
    disassemble_toDecimal, hstol, Option.bind_eq_bind, Option.bind_some, Option.bind_none]

/-- What holds of the store when every set so far was at the end of the log. -/
structure LogOk (wk : WK) (live : Finset Bytes) (last : Option Bytes) (moved : Bool) : Prop where
  addressTexts : AddressTexts wk.lab2
  buffers : wk.lab2.vtable.Buffers
  keys : ∀ key, key ∈ live ↔ (leveldbGet wk.lab2 key).isSome
  recorded : ∀ key ∈ live, key ≠ headkey → ∃ offset,
    wk.lab2.Holds key (vlogValue offset sizeofString) ∧
      offset + recordSize ≤ wk.logfile.contents.length ∧
      (last = some key ↔ offset + recordSize = wk.logfile.contents.length)
  head : headkey ∈ live → ∃ n, wk.lab2.Holds headkey (toDecimal n)
  position : moved = false ↔ wk.logfile.pos = wk.logfile.contents.length

theorem logOk_openWisckey : LogOk openWisckey ∅ none false where
  addressTexts := Follows.openWisckey.addressTexts
  buffers := VTable.buffers_empty
  keys := fun _ => by simp [leveldbGet, openWisckey]
  recorded := fun key h => nomatch h
  head := fun h => nomatch h
  position := by simp [openWisckey]

/-- A set returns; it writes its two fields, and puts its text and the head into the stores. -/
theorem wisckeySet_eq (h : AddressTexts wk.lab2) (env : CallEnv) (args : Args) :
    ∃ wk' args', wisckeySet env wk args = some (wk', args') ∧
      wk'.lab2 = leveldbSet (leveldbSet wk.lab2 env.freshKey args.key
        (vlogValue wk.logfile.pos sizeofString)) env.freshHead headkey
          (toDecimal (wk.logfile.pos + sizeofString)) ∧
      wk'.logfile = (wk.logfile.fwrite (cBuffer args.key env.beyondKey sizeofString)).fwrite
        (cBuffer (vlogValue wk.logfile.pos sizeofString) env.beyondText sizeofString) := by
  obtain ⟨gc, key, accvalue, hgc⟩ := doLogfileGC_eq h env args
  exact ⟨_, _, by simp only [wisckeySet, hgc]; rfl, rfl, rfl⟩

/-- A delete returns; it takes its key out of the stores. -/
theorem wisckeyDel_eq (h : AddressTexts wk.lab2) (env : CallEnv) (args : Args) :
    ∃ wk' args', wisckeyDel env wk args = some (wk', args') ∧
      wk'.lab2 = leveldbDel wk.lab2 args.key ∧ wk'.logfile = wk.logfile := by
  obtain ⟨gc, key, accvalue, hgc⟩ := doLogfileGC_eq h env args
  exact ⟨{ wk with gc, lab2 := leveldbDel wk.lab2 args.key }, { args with accvalue },
    by simp only [wisckeyDel, hgc]; rfl, rfl, rfl⟩

/-- Writing at the end of a file appends. -/
theorem fwrite_end {f : LogFile} (h : f.pos = f.contents.length) (bytes : Bytes) :
    f.fwrite bytes = ⟨f.contents ++ bytes, f.contents.length + bytes.length⟩ := by
  simp [LogFile.fwrite, h]

@[simp] theorem length_cBuffer (s : Bytes) (beyond : Nat → UInt8) (size : Nat) :
    (cBuffer s beyond size).length = size := by simp [cBuffer]

/-- A set at the end of the log makes it longer by a record, behind which it stays. -/
theorem logfile_wisckeySet {f : LogFile} (h : f.pos = f.contents.length) {a b : Bytes}
    (ha : a.length = sizeofString) (hb : b.length = sizeofString) :
    ((f.fwrite a).fwrite b).contents.length = f.contents.length + recordSize ∧
      ((f.fwrite a).fwrite b).pos = ((f.fwrite a).fwrite b).contents.length := by
  have hnext : (f.fwrite a).pos = (f.fwrite a).contents.length := by
    rw [fwrite_end h, List.length_append]
  rw [fwrite_end hnext, fwrite_end h]
  constructor
  · simp only [List.length_append, ha, hb, recordSize]
    omega
  · simp only [List.length_append]

/-- A get of a key whose text gives a record reads the record and stays behind it. -/
theorem wisckeyGet_recorded (haddress : AddressTexts wk.lab2) (hbuffers : wk.lab2.vtable.Buffers)
    (env : CallEnv) (args : Args) {offset : Nat}
    (hholds : wk.lab2.Holds args.key (vlogValue offset sizeofString))
    (hle : offset + recordSize ≤ wk.logfile.contents.length)
    (hfits : wk.logfile.contents.length < 2 ^ 63) :
    ∃ gc accvalue, wisckeyGet env wk args = some
      ({ wk with logfile := ⟨wk.logfile.contents, offset + recordSize⟩, gc },
        ⟨overwrite args.key ((wk.logfile.contents.drop offset).take sizeofString),
          overwrite args.value
            ((wk.logfile.contents.drop (offset + sizeofString)).take sizeofString), accvalue⟩,
        .indeterminate) := by
  obtain ⟨gc, key, accvalue, hgc⟩ := doLogfileGC_eq haddress env args
  obtain ⟨e, i, v, hlookup, hget, htext, hdb⟩ := hholds
  have hderef := hbuffers.deref hlookup hget
  have hoffset : stol (toDecimal offset) = some (offset : Int) := stol_toDecimal (by omega)
  have hsize : stol (toDecimal sizeofString) = some (sizeofString : Int) :=
    stol_toDecimal (by decide)
  have hread : ∀ f : LogFile, ∀ n : Nat, n + sizeofString ≤ f.contents.length →
      (f.fseek n).fread sizeofString =
        ((f.contents.drop n).take sizeofString, ⟨f.contents, n + sizeofString⟩) := by
    intro f n hn
    simp only [LogFile.fseek, Int.natCast_nonneg, if_true, LogFile.fread, Int.toNat_natCast,
      List.length_take, List.length_drop]
    rw [show min sizeofString (f.contents.length - n) = sizeofString by omega]
  have hsizes : recordSize = sizeofString + sizeofString := by decide
  have hfirst := hread wk.logfile offset (by omega)
  have hsecond := hread ⟨wk.logfile.contents, offset + sizeofString⟩ (offset + sizeofString)
    (by simp only; omega)
  rw [Int.natCast_add] at hsecond
  refine ⟨gc, accvalue, ?_⟩
  simp only [wisckeyGet, hgc, Option.bind_eq_bind, Option.bind_some, leveldbGet, hdb,
    strToAddr_addrToStr, hderef, htext, disassemble_vlogValue, hoffset, hsize,
    Int.toNat_natCast, hfirst, hsecond, hsizes, ← Nat.add_assoc]

/-- A get of a key whose text is a number does not come back. -/
theorem wisckeyGet_number (haddress : AddressTexts wk.lab2) (hbuffers : wk.lab2.vtable.Buffers)
    (env : CallEnv) (args : Args) {n : Nat} (hholds : wk.lab2.Holds args.key (toDecimal n)) :
    wisckeyGet env wk args = none := by
  obtain ⟨gc, key, accvalue, hgc⟩ := doLogfileGC_eq haddress env args
  obtain ⟨e, i, v, hlookup, hget, htext, hdb⟩ := hholds
  have hderef := hbuffers.deref hlookup hget
  have hstol : stol [] = none := rfl
  simp only [wisckeyGet, hgc, Option.bind_eq_bind, Option.bind_some, leveldbGet, hdb,
    strToAddr_addrToStr, hderef, htext, disassemble_toDecimal, hstol, Option.bind_none]

namespace LogOk

variable {live : Finset Bytes} {last : Option Bytes} {moved : Bool}

/-- A set at the end of the log. -/
theorem set (h : LogOk wk live last moved) (hmoved : moved = false) (hkey : key ≠ headkey)
    (env : CallEnv) (hmalloc : wk.lab2.vtable.Allocates key env.freshKey)
    (hhead : (leveldbSet wk.lab2 env.freshKey key
      (vlogValue wk.logfile.pos sizeofString)).vtable.Allocates headkey env.freshHead)
    {wk' : WK}
    (hlab : wk'.lab2 = leveldbSet (leveldbSet wk.lab2 env.freshKey key
      (vlogValue wk.logfile.pos sizeofString)) env.freshHead headkey
        (toDecimal (wk.logfile.pos + sizeofString)))
    (hfile : wk'.logfile = (wk.logfile.fwrite (cBuffer key env.beyondKey sizeofString)).fwrite
      (cBuffer (vlogValue wk.logfile.pos sizeofString) env.beyondText sizeofString)) :
    LogOk wk' (insert headkey (insert key live)) (some key) false := by
  have hpos := h.position.mp hmoved
  obtain ⟨hlength, hend⟩ := logfile_wisckeySet hpos
    (length_cBuffer key env.beyondKey sizeofString)
    (length_cBuffer (vlogValue wk.logfile.pos sizeofString) env.beyondText sizeofString)
  rw [← hfile] at hlength hend
  have hdb : ∃ a b, wk'.lab2.db =
      (wk.lab2.db.insert key (addrToStr a)).insert headkey (addrToStr b) := by
    rw [hlab]
    exact ⟨_, _, rfl⟩
  obtain ⟨a, b, hdb⟩ := hdb
  constructor
  · have hfirst := h.addressTexts.insert wk.lab2.vtable key a
    have hsecond := hfirst.insert wk'.lab2.vtable headkey b
    rwa [← hdb] at hsecond
  · rw [hlab]
    exact Lab2.buffers_leveldbSet (Lab2.buffers_leveldbSet h.buffers hmalloc) hhead
  · intro k
    rw [leveldbGet, hdb, Finset.mem_insert, Finset.mem_insert]
    rcases eq_or_ne k headkey with rfl | hk
    · simp
    · rw [AList.lookup_insert_ne hk]
      rcases eq_or_ne k key with rfl | hk'
      · simp
      · rw [AList.lookup_insert_ne hk', h.keys k, leveldbGet]
        simp [hk, hk']
  · intro k hk hne
    rw [hlab]
    rcases eq_or_ne k key with rfl | hk'
    · refine ⟨wk.logfile.pos, Lab2.holds_leveldbSet.leveldbSet_of_ne hne, ?_, ?_⟩
      · rw [hlength, hpos]
      · rw [hlength, hpos]
        exact iff_of_true rfl rfl
    · rw [Finset.mem_insert, Finset.mem_insert] at hk
      obtain ⟨offset, hholds, hle, -⟩ := h.recorded k ((hk.resolve_left hne).resolve_left hk') hne
      have hsize : 0 < recordSize := by decide
      refine ⟨offset, (hholds.leveldbSet_of_ne hk').leveldbSet_of_ne hne, ?_, ?_⟩
      · omega
      · refine iff_of_false ?_ (by omega)
        exact fun heq => hk' (Option.some.inj heq).symm
  · intro _
    rw [hlab]
    exact ⟨_, Lab2.holds_leveldbSet⟩
  · exact iff_of_true rfl hend

/-- What the collector and a get of a missing key leave. -/
theorem congr (h : LogOk wk live last moved) (wk' : WK) (hlab : wk'.lab2 = wk.lab2)
    (hfile : wk'.logfile = wk.logfile) : LogOk wk' live last moved := by
  obtain ⟨haddress, hbuffers, hkeys, hrecorded, hhead, hposition⟩ := h
  refine ⟨hlab ▸ haddress, hlab ▸ hbuffers, hlab ▸ hkeys, ?_, hlab ▸ hhead, hfile ▸ hposition⟩
  rw [hlab, hfile]
  exact hrecorded

theorem del (h : LogOk wk live last moved) {wk' : WK}
    (hlab : wk'.lab2 = leveldbDel wk.lab2 key) (hfile : wk'.logfile = wk.logfile) :
    LogOk wk' (live.erase key) last moved := by
  have hholds : ∀ k text, k ≠ key → wk.lab2.Holds k text → wk'.lab2.Holds k text := by
    intro k text hk hold
    rw [hlab]
    exact hold.leveldbDel_of_ne hk
  constructor
  · intro k text hk
    rw [hlab, leveldbDel_db] at hk
    rcases eq_or_ne k key with rfl | hne
    · exact absurd hk (by simp)
    · rw [AList.lookup_erase_ne hne] at hk
      exact h.addressTexts k text hk
  · rw [hlab]
    exact Lab2.buffers_leveldbDel h.buffers
  · intro k
    rw [leveldbGet, hlab, leveldbDel_db, Finset.mem_erase]
    rcases eq_or_ne k key with rfl | hne
    · simp
    · rw [AList.lookup_erase_ne hne, h.keys k, leveldbGet]
      simp [hne]
  · intro k hk hne
    obtain ⟨hk', hlive⟩ := Finset.mem_erase.mp hk
    obtain ⟨offset, hoffset, hrest⟩ := h.recorded k hlive hne
    rw [hfile]
    exact ⟨offset, hholds k _ hk' hoffset, hrest⟩
  · intro hk
    obtain ⟨hk', hlive⟩ := Finset.mem_erase.mp hk
    obtain ⟨n, hn⟩ := h.head hlive
    exact ⟨n, hholds _ _ hk' hn⟩
  · rw [hfile]
    exact h.position

/-- A get of a key of the user that is live leaves the position behind the key's record. -/
theorem wisckeyGet_live (h : LogOk wk live last moved) (env : CallEnv) (args : Args)
    (hlive : args.key ∈ live) (hkey : args.key ≠ headkey)
    (hfits : wk.logfile.contents.length < 2 ^ 63) :
    ∃ wk' args' r, wisckeyGet env wk args = some (wk', args', r) ∧
      wk'.logfile.contents = wk.logfile.contents ∧
      LogOk wk' live last (decide (last ≠ some args.key)) := by
  obtain ⟨offset, hholds, hle, hlast⟩ := h.recorded _ hlive hkey
  obtain ⟨gc, accvalue, hreturn⟩ :=
    wisckeyGet_recorded h.addressTexts h.buffers env args hholds hle hfits
  refine ⟨_, _, _, hreturn, rfl, ?_⟩
  obtain ⟨haddress, hbuffers, hkeys, hrecorded, hhead, -⟩ := h
  refine ⟨haddress, hbuffers, hkeys, hrecorded, hhead, ?_⟩
  rw [decide_eq_false_iff_not, not_not, hlast]

/-- A get of the store's own key does not come back. -/
theorem wisckeyGet_head (h : LogOk wk live last moved) (env : CallEnv) (args : Args)
    (hlive : args.key ∈ live) (hkey : args.key = headkey) : wisckeyGet env wk args = none := by
  obtain ⟨n, hn⟩ := h.head (hkey ▸ hlive)
  exact wisckeyGet_number h.addressTexts h.buffers env args (hkey.symm ▸ hn)

/-- A get of a key that is not live changes neither the stores nor the log. -/
theorem wisckeyGet_dead (h : LogOk wk live last moved) (env : CallEnv) (args : Args)
    (hdead : args.key ∉ live) :
    ∃ wk' args' r, wisckeyGet env wk args = some (wk', args', r) ∧
      wk'.lab2 = wk.lab2 ∧ wk'.logfile = wk.logfile := by
  obtain ⟨gc, key, accvalue, hgc⟩ := doLogfileGC_eq h.addressTexts env args
  have hnone : leveldbGet wk.lab2 args.key = none :=
    Option.not_isSome_iff_eq_none.mp fun hsome => hdead ((h.keys _).mpr hsome)
  exact ⟨{ wk with gc }, { args with accvalue }, .returned false, by simp [wisckeyGet, hgc, hnone],
    rfl, rfl⟩

/-- A set at the end of the log writes to no record that is recorded. -/
theorem sparesRecords (h : LogOk wk live last moved) (hmoved : moved = false)
    (hfits : wk.logfile.contents.length < 2 ^ 63) (records : List (Bytes × Nat)) :
    SparesRecords wk records := by
  rintro ⟨key, start⟩ - hrecorded
  have hlive : key ∈ live := by
    refine (h.keys key).mpr ?_
    cases hget : leveldbGet wk.lab2 key with
    | none => simp [recordedOffset, hget] at hrecorded
    | some text => rfl
  have hkey : key ≠ headkey := by
    rintro rfl
    obtain ⟨n, hn⟩ := h.head hlive
    rw [recordedOffset_toDecimal h.buffers hn] at hrecorded
    cases hrecorded
  obtain ⟨offset, hholds, hle, -⟩ := h.recorded key hlive hkey
  rw [recordedOffset_vlogValue h.buffers (by omega) hholds] at hrecorded
  obtain rfl := Option.some.inj hrecorded
  rw [h.position.mp hmoved]
  exact .inr hle

/-- From such a store on, a run appends exactly when its sets follow sets. -/
theorem appendOnly_iff (h : LogOk wk live last moved) {calls : List LogCall}
    (hmalloc : Allocates wk calls)
    (hfits : wk.logfile.contents.length + recordSize * calls.length < 2 ^ 63)
    (records : List (Bytes × Nat)) :
    AppendOnly wk records calls ↔ SetsFollowSets live last moved calls := by
  induction calls generalizing wk live last moved records with
  | nil => exact Iff.rfl
  | cons call calls ih =>
    have hsize : recordSize = 64 := rfl
    rw [List.length_cons, hsize] at hfits
    rw [hsize] at ih
    cases call with
    | set env key value accvalue =>
      obtain ⟨wk', args', hset, hlab, hfile⟩ :=
        wisckeySet_eq h.addressTexts env ⟨key, value, accvalue⟩
      obtain ⟨hkeyMalloc, hheadMalloc, hrest⟩ := hmalloc
      have hbuffers : wk'.lab2.vtable.Buffers := by
        rw [hlab]
        exact Lab2.buffers_leveldbSet (Lab2.buffers_leveldbSet h.buffers hkeyMalloc) hheadMalloc
      have hstep : key ≠ headkey → moved = false →
          (recordedOffset wk' key = some wk.logfile.pos ∧
            (AppendOnly wk' ((key, wk.logfile.pos) :: records) calls ↔
              SetsFollowSets (insert headkey (insert key live)) (some key) false calls)) := by
        intro hkey hmoved
        have hpos := h.position.mp hmoved
        have hnext := h.set hmoved hkey env hkeyMalloc hheadMalloc hlab hfile
        obtain ⟨hlength, -⟩ := logfile_wisckeySet hpos
          (length_cBuffer key env.beyondKey sizeofString)
          (length_cBuffer (vlogValue wk.logfile.pos sizeofString) env.beyondText sizeofString)
        rw [← hfile, hsize] at hlength
        refine ⟨?_, ih hnext (hrest wk' args' hset) (by omega) _⟩
        refine recordedOffset_vlogValue hbuffers (by omega) ?_
        rw [hlab]
        exact Lab2.holds_leveldbSet.leveldbSet_of_ne hkey
      simp only [AppendOnly, SetsFollowSets, hset, Option.some.injEq, Prod.mk.injEq]
      constructor
      · intro hall
        obtain ⟨-, hend, hrecorded, htail⟩ := hall wk' args' ⟨rfl, rfl⟩
        have hmoved := h.position.mpr hend
        have hkey : key ≠ headkey := by
          rintro rfl
          have hheld : wk'.lab2.Holds headkey (toDecimal (wk.logfile.pos + sizeofString)) := by
            rw [hlab]
            exact Lab2.holds_leveldbSet
          rw [recordedOffset_toDecimal hbuffers hheld] at hrecorded
          cases hrecorded
        exact ⟨hkey, hmoved, (hstep hkey hmoved).2.mp htail⟩
      · rintro ⟨hkey, hmoved, htail⟩ _ _ ⟨rfl, rfl⟩
        obtain ⟨hrecorded, hiff⟩ := hstep hkey hmoved
        exact ⟨h.sparesRecords hmoved (by omega) records, h.position.mp hmoved, hrecorded,
          hiff.mpr htail⟩
    | get env key value accvalue =>
      simp only [AppendOnly, SetsFollowSets]
      by_cases hlive : key ∈ live
      · rw [if_pos hlive]
        by_cases hkey : key = headkey
        · rw [h.wisckeyGet_head env ⟨key, value, accvalue⟩ hlive hkey]
          exact iff_of_true (fun _ _ _ heq => nomatch heq) (.inl hkey)
        · obtain ⟨wk', args', r, hget, hcontents, hnext⟩ :=
            h.wisckeyGet_live env ⟨key, value, accvalue⟩ hlive hkey (by omega)
          have htail := ih hnext (hmalloc wk' args' r hget) (by rw [hcontents]; omega) records
          rw [or_iff_right hkey, ← htail, hget]
          constructor
          · exact fun hall => (hall wk' args' r rfl).2
          · rintro hrun _ _ _ ⟨rfl, rfl, rfl⟩
            exact ⟨hcontents, hrun⟩
      · rw [if_neg hlive]
        obtain ⟨wk', args', r, hget, hlab, hfile⟩ :=
          h.wisckeyGet_dead env ⟨key, value, accvalue⟩ hlive
        have htail := ih (h.congr wk' hlab hfile) (hmalloc wk' args' r hget)
          (by rw [hfile]; omega) records
        rw [← htail, hget]
        constructor
        · exact fun hall => (hall wk' args' r rfl).2
        · rintro hrun _ _ _ ⟨rfl, rfl, rfl⟩
          exact ⟨by rw [hfile], hrun⟩
    | del env key value accvalue =>
      obtain ⟨wk', args', hdel, hlab, hfile⟩ :=
        wisckeyDel_eq h.addressTexts env ⟨key, value, accvalue⟩
      have htail := ih (h.del hlab hfile) (hmalloc wk' args' hdel) (by rw [hfile]; omega) records
      simp only [AppendOnly, SetsFollowSets]
      rw [← htail, hdel]
      constructor
      · exact fun hall => (hall wk' args' rfl).2
      · rintro hrun _ _ ⟨rfl, rfl⟩
        exact ⟨by rw [hfile], hrun⟩
    | gc env args =>
      obtain ⟨gc, key', accvalue', hgc⟩ := doLogfileGC_eq h.addressTexts env args
      have htail := ih (h.congr { wk with gc } rfl rfl) (hmalloc _ _ hgc)
        (by simp only; omega) records
      simp only [AppendOnly, SetsFollowSets]
      rw [← htail, hgc]
      constructor
      · exact fun hall => (hall _ _ rfl).2
      · rintro hrun _ _ ⟨rfl, rfl⟩
        exact ⟨rfl, hrun⟩

end LogOk

end WK

/-- A run on the opened store appends only, and records where it appends, exactly when no set of it
has the store's own key, and before each the last get since the previous set that found its key
asked for the key set last. -/
theorem openWisckey_appendOnly_iff (calls : List LogCall) (hmalloc : Allocates openWisckey calls)
    (hfits : recordSize * calls.length < 2 ^ 63) :
    AppendOnly openWisckey [] calls ↔ SetsFollowSets ∅ none false calls :=
  WK.logOk_openWisckey.appendOnly_iff hmalloc
    (by rw [show openWisckey.logfile.contents.length = 0 from rfl]; omega) []

/-- Surroundings in which `malloc` gives every call pages of its own. -/
def pagesEnv (call : Nat) : CallEnv :=
  ⟨false, 0, 8192 * call + 4096, 8192 * call + 8192, fun _ => 0, fun _ => 0⟩

/-- Getting back what was set last leaves the next set at the end. -/
theorem openWisckey_appendOnly_setGetSet :
    AppendOnly openWisckey [] [.set (pagesEnv 0) (ascii ['a']) [] [],
      .get (pagesEnv 1) (ascii ['a']) [] [], .set (pagesEnv 2) (ascii ['b']) [] []] :=
  (openWisckey_appendOnly_iff _ (by decide) (by decide)).mpr
    (by simp [SetsFollowSets, ascii, headkey])

/-- A set after a get of the older of two keys writes over the record of the other. -/
theorem openWisckey_overwrites :
    ¬ ∀ calls, Allocates openWisckey calls → recordSize * calls.length < 2 ^ 63 →
      AppendOnly openWisckey [] calls := by
  intro h
  let calls : List LogCall := [.set (pagesEnv 0) (ascii ['a']) [] [],
    .set (pagesEnv 1) (ascii ['b']) [] [], .get (pagesEnv 2) (ascii ['a']) [] [],
    .set (pagesEnv 3) (ascii ['c']) [] []]
  have hmalloc : Allocates openWisckey calls := by decide
  have hrun := h calls hmalloc (by decide)
  rw [WK.logOk_openWisckey.appendOnly_iff hmalloc (by decide)] at hrun
  have hkeys : ascii ['b'] ≠ ascii ['a'] := by decide
  have hhead : ascii ['a'] ≠ headkey := by decide
  simp [calls, SetsFollowSets, hkeys, hhead] at hrun

end WiscKey
