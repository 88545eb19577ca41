import WiscKey.ValueLog.Store
import WiscKey.Library.Runs

/-!
# Interleaved sets and deletes

Clients run `leveldb_set` and `leveldb_del` with their two halves as separate steps. The
table and the engine agree on a key when nobody is working on it, as long as the last
half-step on the key finds the other store as it left it: a `Put` its element still the
last one, an erase the key still absent from the engine.
-/

namespace WiscKey

/-- Where a client stands. -/
inductive Pc
  | idle
  /-- Between the unlock of `leveldb_set` and its `Put`. -/
  | putting (key : Bytes) (idx : Nat)
  /-- Between the `Delete` of `leveldb_del` and its lock. -/
  | erasing (key : Bytes)
  deriving DecidableEq, Repr

/-- The key a client works on. -/
def Pc.key? : Pc → Option Bytes
  | idle => none
  | putting key _ => some key
  | erasing key => some key

variable {Client : Type} [DecidableEq Client]

/-- The stores and the clients. -/
structure Clients (Client : Type) where
  store : Lab2
  pc : Client → Pc

/-- The half-steps. `fresh` is the buffer that a growing vector gets. -/
inductive HalfStep (Client : Type)
  | setLocked (c : Client) (fresh : Nat) (key value : Bytes)
  | setPut (c : Client)
  | delDelete (c : Client) (key : Bytes)
  | delErase (c : Client)
  deriving DecidableEq, Repr

/-- One half-step, where the client is at its point. -/
def halfStep (s : Clients Client) : HalfStep Client → Option (Clients Client)
  | .setLocked c fresh key value =>
    match s.pc c with
    | .idle =>
      let (vtable, idx) := leveldbSetLocked s.store.vtable fresh key value
      some ⟨{ s.store with vtable }, Function.update s.pc c (.putting key idx)⟩
    | _ => none
  | .setPut c =>
    match s.pc c with
    | .putting key idx => some ⟨leveldbSetPut s.store key idx, Function.update s.pc c .idle⟩
    | _ => none
  | .delDelete c key =>
    match s.pc c with
    | .idle => some ⟨leveldbDelDelete s.store key, Function.update s.pc c (.erasing key)⟩
    | _ => none
  | .delErase c =>
    match s.pc c with
    | .erasing key => some ⟨leveldbDelErase s.store key, Function.update s.pc c .idle⟩
    | _ => none

/-- The step relation of the clients. -/
def HalfSteps (s : Clients Client) (a : HalfStep Client) (s' : Clients Client) : Prop :=
  halfStep s a = some s'

/-- Empty stores and idle clients. -/
def Clients.initial : Clients Client := ⟨⟨∅, ∅⟩, fun _ => .idle⟩

/-- The two stores agree on a key. -/
def AgreesAt (s : Lab2) (key : Bytes) : Prop :=
  match s.vtable.lookup key with
  | none => s.db.lookup key = none
  | some e => s.db.lookup key = some (addrToStr (e.addr (e.valVec.length - 1))) ∧
      e.valVec.getLast?.map ValueInfo.version = some e.latestVer

/-- Some client other than `c` works on the key. -/
def BusyWithout (s : Clients Client) (c : Client) (key : Bytes) : Prop :=
  ∃ c', c' ≠ c ∧ (s.pc c').key? = some key

/-- The half-step that leaves a key alone finds the other store in order: the element of a set is
the last of its vector, the key of a delete is not in the engine. -/
def InOrder (s : Clients Client) : HalfStep Client → Prop
  | .setPut c =>
    match s.pc c with
    | .putting key idx => ¬ BusyWithout s c key →
        (s.store.vtable.lookup key).map (fun e => e.valVec.length) = some (idx + 1)
    | _ => True
  | .delErase c =>
    match s.pc c with
    | .erasing key => ¬ BusyWithout s c key → s.store.db.lookup key = none
    | _ => True
  | _ => True

/-- The last version of a non-empty vector is the latest one. -/
def LatestLast (vtable : VTable) : Prop :=
  ∀ key e, vtable.lookup key = some e → e.valVec ≠ [] →
    e.valVec.getLast?.map ValueInfo.version = some e.latestVer

/-- What holds between half-steps: the stores agree on every key that nobody works on. -/
structure Agreeing (s : Clients Client) : Prop where
  latest : LatestLast s.store.vtable
  agrees : ∀ key, (∀ c, (s.pc c).key? ≠ some key) → AgreesAt s.store key

omit [DecidableEq Client] in
theorem initial_agreeing : Agreeing (Clients.initial : Clients Client) :=
  ⟨fun key e h => by simp [Clients.initial] at h, fun key _ => by simp [AgreesAt, Clients.initial]⟩

/-- The locked half of a set writes the entry of its key only. -/
theorem leveldbSetLocked_lookup_of_ne {vtable : VTable} {fresh : Nat} {key value key' : Bytes}
    (h : key' ≠ key) : (leveldbSetLocked vtable fresh key value).1.lookup key' =
      vtable.lookup key' := by
  unfold leveldbSetLocked
  split <;> exact AList.lookup_insert_ne h

/-- The entry after the locked half of a set ends with the version it records. -/
theorem leveldbSetLocked_latest {vtable : VTable} (h : LatestLast vtable) (fresh : Nat)
    (key value : Bytes) : LatestLast (leveldbSetLocked vtable fresh key value).1 := by
  intro key' e he hne
  by_cases hk : key' = key
  · subst key'
    unfold leveldbSetLocked at he
    split at he
    · obtain rfl := Option.some.inj ((AList.lookup_insert _).symm.trans he)
      simp [VTableEntry.pushBack, VTableEntry.empty]
    · obtain rfl := Option.some.inj ((AList.lookup_insert _).symm.trans he)
      unfold VTableEntry.pushBack
      split <;> simp
  · rw [leveldbSetLocked_lookup_of_ne hk] at he
    exact h key' e he hne

/-- The unlocked half of a set looks at other keys in neither store. -/
theorem leveldbSetPut_lookup_of_ne {s : Lab2} {key key' : Bytes} (idx : Nat) (h : key' ≠ key) :
    (leveldbSetPut s key idx).vtable.lookup key' = s.vtable.lookup key' ∧
      (leveldbSetPut s key idx).db.lookup key' = s.db.lookup key' := by
  unfold leveldbSetPut
  refine ⟨?_, AList.lookup_insert_ne h⟩
  simp only
  split
  · rfl
  · exact AList.lookup_insert_ne h

theorem leveldbSetPut_latest {s : Lab2} (h : LatestLast s.vtable) (key : Bytes) (idx : Nat) :
    LatestLast (leveldbSetPut s key idx).vtable := by
  intro key' e he hne
  unfold leveldbSetPut at he
  simp only at he
  split at he
  · exact h key' e he hne
  · by_cases hk : key' = key
    · subst key'
      obtain rfl := Option.some.inj ((AList.lookup_insert _).symm.trans he)
      exact absurd rfl hne
    · rw [AList.lookup_insert_ne hk] at he
      exact h key' e he hne

theorem leveldbDelErase_latest {s : Lab2} (h : LatestLast s.vtable) (key : Bytes) :
    LatestLast (leveldbDelErase s key).vtable := by
  intro key' e he hne
  by_cases hk : key' = key
  · subst key'
    simp [leveldbDelErase] at he
  · exact h key' e (by simpa [leveldbDelErase, AList.lookup_erase_ne hk] using he) hne

/-- Agreement on a key depends on what the two stores hold under it. -/
theorem AgreesAt.congr {s s' : Lab2} {key : Bytes} (h : AgreesAt s key)
    (hvtable : s'.vtable.lookup key = s.vtable.lookup key)
    (hdb : s'.db.lookup key = s.db.lookup key) : AgreesAt s' key := by
  unfold AgreesAt
  rw [hvtable, hdb]
  exact h

/-- Different elements of a vector have different addresses. -/
theorem VTableEntry.addr_injective (e : VTableEntry) : Function.Injective e.addr := by
  intro i j h
  unfold addr sizeofValueInfo at h
  omega

/-- The `Put` that leaves a key alone makes the stores agree exactly when it is in order. -/
theorem leveldbSetPut_agreesAt_iff {s : Lab2} (h : LatestLast s.vtable) (key : Bytes) (idx : Nat) :
    AgreesAt (leveldbSetPut s key idx) key ↔
      (s.vtable.lookup key).map (fun e => e.valVec.length) = some (idx + 1) := by
  have hdb : ∀ e, s.vtable.lookup key = some e →
      (leveldbSetPut s key idx).vtable.lookup key = some e ∧
        (leveldbSetPut s key idx).db.lookup key = some (addrToStr (e.addr idx)) := by
    intro e he
    have hmem : key ∈ s.vtable := AList.lookup_isSome.mp (by rw [he]; rfl)
    simp [leveldbSetPut, hmem, he, VTable.entry]
  cases he : s.vtable.lookup key with
  | none =>
    have hmem : key ∉ s.vtable := AList.lookup_eq_none.mp he
    simp [AgreesAt, leveldbSetPut, hmem, VTableEntry.empty]
  | some e =>
    obtain ⟨hvtable, hput⟩ := hdb e he
    simp only [AgreesAt, hvtable, hput, Option.some.injEq, Option.map_some]
    constructor
    · rintro ⟨haddr, hlast⟩
      have hidx := e.addr_injective (addrToStr_injective haddr)
      have hpos : e.valVec ≠ [] := by
        intro hnil
        simp [hnil] at hlast
      have := List.length_pos_of_ne_nil hpos
      omega
    · intro hlen
      have hne : e.valVec ≠ [] := by
        intro hnil
        simp [hnil] at hlen
      refine ⟨?_, h key e he hne⟩
      rw [hlen, Nat.add_sub_cancel]

/-- So does the erase. -/
theorem leveldbDelErase_agreesAt_iff (s : Lab2) (key : Bytes) :
    AgreesAt (leveldbDelErase s key) key ↔ s.db.lookup key = none := by
  simp [AgreesAt, leveldbDelErase]

/-- A client that moves changes the point of no other client. -/
theorem busy_update {pc : Client → Pc} {c : Client} {p : Pc} {key : Bytes}
    (h : ∀ c', (Function.update pc c p c').key? ≠ some key) :
    p.key? ≠ some key ∧ ∀ c', c' ≠ c → (pc c').key? ≠ some key := by
  refine ⟨by simpa using h c, fun c' hc => ?_⟩
  have hc' := h c'
  rwa [Function.update_of_ne hc] at hc'

/-- A key that nobody works on after a half-step, and that the client did not work on before it,
was free before. -/
theorem free_before {pc : Client → Pc} {c : Client} {p : Pc} {key : Bytes}
    (h : ∀ c', (Function.update pc c p c').key? ≠ some key) (hc : (pc c).key? ≠ some key) :
    ∀ c', (pc c').key? ≠ some key := by
  intro c'
  by_cases hcc : c' = c
  · exact hcc ▸ hc
  · exact (busy_update h).2 c' hcc

/-- A half-step in order keeps the agreement. -/
theorem Agreeing.halfStep {s s' : Clients Client} {a : HalfStep Client} (h : Agreeing s)
    (hstep : StepWhen HalfSteps InOrder s a s') : Agreeing s' := by
  obtain ⟨horder, hok⟩ := hstep
  cases a with
  | setLocked c fresh key value =>
    simp only [HalfSteps, WiscKey.halfStep] at hok
    split at hok
    · rename_i hpc
      obtain rfl := Option.some.inj hok
      refine ⟨leveldbSetLocked_latest h.latest fresh key value, fun key' hfree => ?_⟩
      have hne : key' ≠ key := fun he => (busy_update hfree).1 (by rw [he]; rfl)
      have hbefore := free_before hfree (by simp [hpc, Pc.key?])
      exact (h.agrees key' hbefore).congr (leveldbSetLocked_lookup_of_ne hne) rfl
    · cases hok
  | setPut c =>
    simp only [HalfSteps, WiscKey.halfStep] at hok
    split at hok
    · rename_i key idx hpc
      obtain rfl := Option.some.inj hok
      refine ⟨leveldbSetPut_latest h.latest key idx, fun key' hfree => ?_⟩
      by_cases hk : key' = key
      · subst key'
        rw [leveldbSetPut_agreesAt_iff h.latest]
        simp only [InOrder, hpc] at horder
        exact horder fun ⟨c', hc, hbusy⟩ => (busy_update hfree).2 c' hc hbusy
      · have hbefore := free_before hfree (by
          rw [hpc]
          exact fun he => hk (Option.some.inj he).symm)
        obtain ⟨hvtable, hdb⟩ := leveldbSetPut_lookup_of_ne (s := s.store) idx hk
        exact (h.agrees key' hbefore).congr hvtable hdb
    · cases hok
  | delDelete c key =>
    simp only [HalfSteps, WiscKey.halfStep] at hok
    split at hok
    · rename_i hpc
      obtain rfl := Option.some.inj hok
      refine ⟨h.latest, fun key' hfree => ?_⟩
      have hne : key' ≠ key := fun he => (busy_update hfree).1 (by rw [he]; rfl)
      have hbefore := free_before hfree (by simp [hpc, Pc.key?])
      exact (h.agrees key' hbefore).congr rfl (AList.lookup_erase_ne hne)
    · cases hok
  | delErase c =>
    simp only [HalfSteps, WiscKey.halfStep] at hok
    split at hok
    · rename_i key hpc
      obtain rfl := Option.some.inj hok
      refine ⟨leveldbDelErase_latest h.latest key, fun key' hfree => ?_⟩
      by_cases hk : key' = key
      · subst key'
        rw [leveldbDelErase_agreesAt_iff]
        simp only [InOrder, hpc] at horder
        exact horder fun ⟨c', hc, hbusy⟩ => (busy_update hfree).2 c' hc hbusy
      · have hbefore := free_before hfree (by
          rw [hpc]
          exact fun he => hk (Option.some.inj he).symm)
        exact (h.agrees key' hbefore).congr (AList.lookup_erase_ne hk) rfl
    · cases hok

/-- After a run in order, the two stores agree on every key that nobody works on. -/
theorem halfSteps_agree {s : Clients Client} {actions : List (HalfStep Client)}
    (hrun : Run (StepWhen HalfSteps InOrder) Clients.initial actions s) (key : Bytes)
    (hfree : ∀ c, (s.pc c).key? ≠ some key) : AgreesAt s.store key :=
  (hrun.invariant Agreeing initial_agreeing fun _ _ _ h hstep => h.halfStep hstep).agrees key hfree

/-- Two clients set one key, and put in the order of their locks. -/
theorem halfSteps_agree_in_order :
    ∃ s : Clients Bool, Run (StepWhen HalfSteps InOrder) Clients.initial
        [.setLocked false 4096 (ascii ['k']) (ascii ['v']),
          .setLocked true 8192 (ascii ['k']) (ascii ['w']), .setPut false, .setPut true] s ∧
      (∀ c, s.pc c = .idle) ∧ s.store.db.lookup (ascii ['k']) ≠ none ∧
        AgreesAt s.store (ascii ['k']) := by
  obtain ⟨s, hrun, hidle, hput⟩ : ∃ s : Clients Bool,
      Run (StepWhen HalfSteps InOrder) Clients.initial
        [.setLocked false 4096 (ascii ['k']) (ascii ['v']),
          .setLocked true 8192 (ascii ['k']) (ascii ['w']), .setPut false, .setPut true] s ∧
        (∀ c, s.pc c = .idle) ∧ s.store.db.lookup (ascii ['k']) ≠ none := by
    refine ⟨_, .cons ⟨trivial, rfl⟩ (.cons ⟨trivial, rfl⟩ (.cons ⟨?_, rfl⟩
      (.cons ⟨?_, rfl⟩ (.nil _)))), by decide, by decide⟩
    · exact fun hbusy => absurd ⟨true, by decide, rfl⟩ hbusy
    · exact fun _ => rfl
  exact ⟨s, hrun, hidle, hput, halfSteps_agree hrun _ fun c => by rw [hidle c]; exact nofun⟩

/-- Two clients set one key and put in the other order: the engine keeps the address of the
version before the last. -/
theorem halfSteps_disagree :
    ∃ s : Clients Bool, Run HalfSteps Clients.initial
        [.setLocked false 4096 (ascii ['k']) (ascii ['v']),
          .setLocked true 8192 (ascii ['k']) (ascii ['w']), .setPut true, .setPut false] s ∧
      (∀ c, s.pc c = .idle) ∧ ¬ ∀ key, AgreesAt s.store key := by
  refine ⟨_, .cons rfl (.cons rfl (.cons rfl (.cons rfl (.nil _)))), by decide, fun hall => ?_⟩
  have hk := (hall (ascii ['k'])).1
  revert hk
  decide

end WiscKey
