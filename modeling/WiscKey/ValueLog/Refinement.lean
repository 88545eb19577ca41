import WiscKey.ValueLog.Store

/-!
# The store against a map

The intended meaning of the store is a partial map from user keys to values. A
run is compared with it call by call. The engine's key set follows the map, but
a get of a key it holds leaves the function without a return value, and no set
ever writes its value: the two agree exactly on the runs that read no live key.
-/

namespace WiscKey

/-- A key of the store's user: none of the three names the store keeps for itself. -/
def UserKey : Type := { key : Bytes // key ≠ headkey ∧ key ≠ tailkey ∧ key ≠ gcKey }

instance : DecidableEq UserKey := inferInstanceAs (DecidableEq (Subtype _))

/-- One call on the open store, with what it finds around it. -/
inductive Call
  | set (env : CallEnv) (key : UserKey) (value accvalue : Bytes)
  | get (env : CallEnv) (key : UserKey) (value accvalue : Bytes)
  | del (env : CallEnv) (key : UserKey) (value accvalue : Bytes)

/-- The map the calls so far describe. -/
abbrev ValueMap := UserKey → Option Bytes

/-- What a get must do where the map is `m`. -/
def GetMeets (m : ValueMap) (key : UserKey) (value : Bytes) (r : GetReturn) : Prop :=
  match m key with
  | some v => r = .returned true ∧ value = v
  | none => r = .returned false

/-- Every call of the run comes back, and every get as the map says. -/
def RefinesMap (wk : WK) (m : ValueMap) : List Call → Prop
  | [] => True
  | .set env key value accvalue :: calls =>
    ∃ wk' args, wisckeySet env wk ⟨key.val, value, accvalue⟩ = some (wk', args) ∧
      RefinesMap wk' (Function.update m key (some value)) calls
  | .get env key value accvalue :: calls =>
    ∃ wk' args r, wisckeyGet env wk ⟨key.val, value, accvalue⟩ = some (wk', args, r) ∧
      GetMeets m key args.value r ∧ RefinesMap wk' m calls
  | .del env key value accvalue :: calls =>
    ∃ wk' args, wisckeyDel env wk ⟨key.val, value, accvalue⟩ = some (wk', args) ∧
      RefinesMap wk' (Function.update m key none) calls

/-- No get of the run asks for a key that was set and not deleted since. -/
def NoLiveGet (m : ValueMap) : List Call → Prop
  | [] => True
  | .set _ key value _ :: calls => NoLiveGet (Function.update m key (some value)) calls
  | .get _ key _ _ :: calls => m key = none ∧ NoLiveGet m calls
  | .del _ key _ _ :: calls => NoLiveGet (Function.update m key none) calls

/-- Every text the engine holds is an address. -/
def AddressTexts (lab2 : Lab2) : Prop :=
  ∀ key text, lab2.db.lookup key = some text → ∃ a, text = addrToStr a

/-- The engine holds addresses only, and its user keys are those of the map. -/
structure Follows (wk : WK) (m : ValueMap) : Prop where
  addressTexts : AddressTexts wk.lab2
  keys : ∀ key : UserKey, (leveldbGet wk.lab2 key.val).isSome = (m key).isSome

theorem AddressTexts.insert {lab2 : Lab2} (h : AddressTexts lab2) (vt : VTable) (key : Bytes)
    (a : Nat) : AddressTexts ⟨vt, lab2.db.insert key (addrToStr a)⟩ := by
  intro k text hk
  by_cases hkey : k = key
  · subst k
    rw [AList.lookup_insert] at hk
    exact ⟨a, (Option.some.inj hk).symm⟩
  · rw [AList.lookup_insert_ne hkey] at hk
    exact h k text hk

/-- The garbage collector's stored numbers are zero: addresses have no decimal digits in front. -/
theorem storedNumber_eq {lab2 : Lab2} (h : AddressTexts lab2) (key accvalue : Bytes) :
    ∃ text, storedNumber lab2 key accvalue = some (0, text) := by
  unfold storedNumber
  cases hk : leveldbGet lab2 key with
  | none => exact ⟨accvalue, rfl⟩
  | some text =>
    obtain ⟨a, rfl⟩ := h key text hk
    exact ⟨addrToStr a, by simp [stol_addrToStr]⟩

/-- With only addresses in the engine the collector never enters its loop. -/
theorem doLogfileGC_eq {wk : WK} (h : AddressTexts wk.lab2) (env : CallEnv) (args : Args) :
    ∃ gc key accvalue, doLogfileGC env wk args =
      some ({ wk with gc }, { args with key, accvalue }) := by
  unfold doLogfileGC
  split
  · obtain ⟨text, hhead⟩ := storedNumber_eq h headkey args.accvalue
    obtain ⟨text', hgc⟩ := storedNumber_eq h gcKey text
    exact ⟨0, gcKey, text', by simp [logfileGC, hhead, hgc]⟩
  · exact ⟨wk.gc, args.key, args.accvalue, rfl⟩

/-- A set returns, and puts its key and the head key into the engine. -/
theorem wisckeySet_db {wk : WK} (h : AddressTexts wk.lab2) (env : CallEnv) (args : Args) :
    ∃ wk' args' a b, wisckeySet env wk args = some (wk', args') ∧
      wk'.lab2.db =
        (wk.lab2.db.insert args.key (addrToStr a)).insert headkey (addrToStr b) := by
  obtain ⟨gc, key, accvalue, hgc⟩ := doLogfileGC_eq h env args
  exact ⟨_, _, _, _, by simp only [wisckeySet, hgc]; rfl, rfl⟩

/-- A delete returns, and takes its key out of the engine. -/
theorem wisckeyDel_db {wk : WK} (h : AddressTexts wk.lab2) (env : CallEnv) (args : Args) :
    ∃ wk' args', wisckeyDel env wk args = some (wk', args') ∧
      wk'.lab2.db = wk.lab2.db.erase args.key := by
  obtain ⟨gc, key, accvalue, hgc⟩ := doLogfileGC_eq h env args
  exact ⟨_, _, by simp only [wisckeyDel, hgc]; rfl, rfl⟩

/-- A get of a key the engine lacks returns false and changes neither store. -/
theorem wisckeyGet_absent {wk : WK} (h : AddressTexts wk.lab2) (env : CallEnv) (args : Args)
    (hk : leveldbGet wk.lab2 args.key = none) :
    ∃ wk' args', wisckeyGet env wk args = some (wk', args', .returned false) ∧
      wk'.lab2 = wk.lab2 := by
  obtain ⟨gc, key, accvalue, hgc⟩ := doLogfileGC_eq h env args
  refine ⟨{ wk with gc }, { args with accvalue }, ?_, rfl⟩
  simp [wisckeyGet, hgc, hk]

/-- A get of a key the engine holds reaches no return statement. -/
theorem wisckeyGet_present {wk wk' : WK} {env : CallEnv} {args args' : Args} {r : GetReturn}
    (h : AddressTexts wk.lab2) (hk : (leveldbGet wk.lab2 args.key).isSome)
    (hg : wisckeyGet env wk args = some (wk', args', r)) : r = .indeterminate := by
  obtain ⟨gc, key, accvalue, hgc⟩ := doLogfileGC_eq h env args
  obtain ⟨text, htext⟩ := Option.isSome_iff_exists.mp hk
  simp only [wisckeyGet, hgc, Option.bind_eq_bind, Option.bind_some, htext,
    Option.bind_eq_some_iff, Option.some.injEq, Prod.mk.injEq] at hg
  obtain ⟨_, _, _, _, _, _, _, _, hr⟩ := hg
  exact hr.symm

/-- What a set leaves behind does not depend on its value: the value is written nowhere. -/
theorem wisckeySet_value_irrelevant (env : CallEnv) (wk : WK) (key value value' accvalue : Bytes) :
    (wisckeySet env wk ⟨key, value, accvalue⟩).map Prod.fst =
      (wisckeySet env wk ⟨key, value', accvalue⟩).map Prod.fst := by
  have hgc : (doLogfileGC env wk ⟨key, value, accvalue⟩).map Prod.fst =
      (doLogfileGC env wk ⟨key, value', accvalue⟩).map Prod.fst := by
    unfold doLogfileGC logfileGC
    split
    · cases storedNumber wk.lab2 headkey accvalue with
      | none => rfl
      | some head =>
        cases hs : storedNumber wk.lab2 gcKey head.2 with
        | none => simp [hs]
        | some gc =>
          simp only [hs, Option.bind_eq_bind, Option.bind_some]
          split <;> rfl
    · rfl
  unfold wisckeySet
  cases h : doLogfileGC env wk ⟨key, value, accvalue⟩ with
  | none =>
    cases h' : doLogfileGC env wk ⟨key, value', accvalue⟩ with
    | none => rfl
    | some _ => simp [h, h'] at hgc
  | some r =>
    cases h' : doLogfileGC env wk ⟨key, value', accvalue⟩ with
    | none => simp [h, h'] at hgc
    | some r' =>
      have hw : r.1 = r'.1 := by simpa [h, h'] using hgc
      simp [hw]

namespace Follows

variable {wk wk' : WK} {m : ValueMap}

/-- A set's two puts give the engine the set's key and no other user key. -/
theorem set (h : Follows wk m) (key : UserKey) (value : Bytes) {a b : Nat}
    (he : wk'.lab2.db =
      (wk.lab2.db.insert key.val (addrToStr a)).insert headkey (addrToStr b)) :
    Follows wk' (Function.update m key (some value)) := by
  constructor
  · have hkey := h.addressTexts.insert wk.lab2.vtable key.val a
    have hhead := hkey.insert wk'.lab2.vtable headkey b
    rwa [← he] at hhead
  · intro k
    rw [leveldbGet, he, AList.lookup_insert_ne k.property.1]
    by_cases hk : k = key
    · subst k
      simp
    · rw [AList.lookup_insert_ne fun hv => hk (Subtype.ext hv), Function.update_of_ne hk]
      exact h.keys k

/-- A delete takes its key, and no other user key, from the engine. -/
theorem del (h : Follows wk m) (key : UserKey) (he : wk'.lab2.db = wk.lab2.db.erase key.val) :
    Follows wk' (Function.update m key none) := by
  constructor
  · intro k text hk
    rw [he] at hk
    by_cases hkey : k = key.val
    · subst k
      simp at hk
    · rw [AList.lookup_erase_ne hkey] at hk
      exact h.addressTexts k text hk
  · intro k
    rw [leveldbGet, he]
    by_cases hk : k = key
    · subst k
      simp
    · rw [AList.lookup_erase_ne fun hv => hk (Subtype.ext hv), Function.update_of_ne hk]
      exact h.keys k

/-- From related states on, a run meets the map exactly when it reads no live key. -/
theorem refinesMap_iff (h : Follows wk m) (calls : List Call) :
    RefinesMap wk m calls ↔ NoLiveGet m calls := by
  induction calls generalizing wk m with
  | nil => exact Iff.rfl
  | cons call calls ih =>
    cases call with
    | set env key value accvalue =>
      obtain ⟨wk', args, a, b, hs, hdb⟩ :=
        wisckeySet_db h.addressTexts env ⟨key.val, value, accvalue⟩
      have hnext := ih (h.set key value hdb)
      simp only [RefinesMap, NoLiveGet, hs, Option.some.injEq, Prod.mk.injEq]
      constructor
      · rintro ⟨_, _, ⟨rfl, rfl⟩, hr⟩
        exact hnext.mp hr
      · intro hr
        exact ⟨wk', args, ⟨rfl, rfl⟩, hnext.mpr hr⟩
    | get env key value accvalue =>
      have hkeys := h.keys key
      simp only [RefinesMap, NoLiveGet]
      cases hm : m key with
      | none =>
        have hk : leveldbGet wk.lab2 key.val = none := by simpa [hm] using hkeys
        obtain ⟨wk', args, hg, hlab⟩ :=
          wisckeyGet_absent h.addressTexts env ⟨key.val, value, accvalue⟩ hk
        have hfollows : Follows wk' m :=
          ⟨hlab ▸ h.addressTexts, fun k => by rw [hlab]; exact h.keys k⟩
        have hnext := ih hfollows
        simp only [GetMeets, hm, hg, Option.some.injEq, Prod.mk.injEq, true_and]
        constructor
        · rintro ⟨_, _, _, ⟨rfl, rfl, rfl⟩, _, hr⟩
          exact hnext.mp hr
        · intro hr
          exact ⟨wk', args, _, ⟨rfl, rfl, rfl⟩, rfl, hnext.mpr hr⟩
      | some v =>
        have hk : (leveldbGet wk.lab2 key.val).isSome := by simpa [hm] using hkeys
        constructor
        · rintro ⟨_, _, r, hg, hmeets, _⟩
          have hr := wisckeyGet_present h.addressTexts hk hg
          simp [GetMeets, hm, hr] at hmeets
        · rintro ⟨hnone, _⟩
          cases hnone
    | del env key value accvalue =>
      obtain ⟨wk', args, hs, hdb⟩ :=
        wisckeyDel_db h.addressTexts env ⟨key.val, value, accvalue⟩
      have hnext := ih (h.del key hdb)
      simp only [RefinesMap, NoLiveGet, hs, Option.some.injEq, Prod.mk.injEq]
      constructor
      · rintro ⟨_, _, ⟨rfl, rfl⟩, hr⟩
        exact hnext.mp hr
      · intro hr
        exact ⟨wk', args, ⟨rfl, rfl⟩, hnext.mpr hr⟩

/-- The opened store is related to the empty map. -/
theorem openWisckey : Follows openWisckey fun _ => none :=
  ⟨fun _ _ h => (Option.some_ne_none _ h.symm).elim, fun _ => rfl⟩

end Follows

/-- A run on the opened store meets the map exactly when no get of it asks for a
key whose latest earlier set or delete is a set. -/
theorem openWisckey_refinesMap_iff (calls : List Call) :
    RefinesMap openWisckey (fun _ => none) calls ↔ NoLiveGet (fun _ => none) calls :=
  Follows.openWisckey.refinesMap_iff calls

/-- Surroundings in which the engine has not compacted. -/
def quietEnv : CallEnv := ⟨false, 0, 4096, 8192, fun _ => 0, fun _ => 0⟩

/-- The user key `k`. -/
def keyK : UserKey := ⟨ascii ['k'], by decide⟩

/-- Setting `k` and getting it back does not return the value. -/
theorem openWisckey_set_get_fails :
    ¬ RefinesMap openWisckey (fun _ => none)
      [.set quietEnv keyK (ascii ['v']) [], .get quietEnv keyK [] []] := by
  rw [Follows.openWisckey.refinesMap_iff]
  simp [NoLiveGet]

end WiscKey
