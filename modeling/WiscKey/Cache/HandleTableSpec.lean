import WiscKey.Cache.LruCache

/-!
# The members of the hash table

Every handle is in the chain of its hash, no two have the same key and hash, and there are no more
handles than chains. Looking up, putting in and taking out are then told by the members alone.
-/

namespace WiscKey

/-- A handle with a key and a hash. -/
def Named (handles : Handles) (key : Bytes) (hash n : Nat) : Prop :=
  ∃ h, handles n = some h ∧ h.hash = hash ∧ h.key = key

/-- The handles of every chain have hashes that lead to it. -/
structure Chained (handles : Handles) (length : Nat) (list : List (List Nat)) : Prop where
  buckets : list.length = length
  placed : ∀ (i : Nat) chain, list[i]? = some chain → ∀ n ∈ chain,
    ∃ h, handles n = some h ∧ HandleTable.bucket length h.hash = i

/-- No two handles have the same key and hash. -/
def UniqueNames (handles : Handles) (l : List Nat) : Prop :=
  ∀ n ∈ l, ∀ m ∈ l, ∀ key hash, Named handles key hash n → Named handles key hash m → n = m

/-- The invariant of the hash table. -/
structure TableOk (handles : Handles) (t : HandleTable) : Prop where
  pos : 0 < t.length
  bound : t.length ≤ 2 ^ 31
  chained : Chained handles t.length t.list
  elems : t.elems = t.members.length
  load : t.elems ≤ t.length
  nodup : t.members.Nodup
  unique : UniqueNames handles t.members

section Chains

variable {handles handles' : Handles} {length : Nat} {list : List (List Nat)} {key : Bytes}
  {hash n : Nat} {chain : List Nat}

/-- The search stops at the first handle with the key and the hash. -/
theorem findPointer_spec (hlive : ∀ n ∈ chain, ∃ h, handles n = some h) : ∃ front back,
    chain = front ++ back ∧ HandleTable.findPointer handles key hash chain = some front.length ∧
      (∀ n ∈ front, ¬ Named handles key hash n) ∧ ∀ n ∈ back.head?, Named handles key hash n := by
  induction chain with
  | nil => exact ⟨[], [], rfl, rfl, (fun _ h => absurd h List.not_mem_nil), fun _ h => by simp at h⟩
  | cons n chain ih =>
    obtain ⟨⟨h, hh⟩, hlive⟩ := List.forall_mem_cons.mp hlive
    rw [HandleTable.findPointer, hh]
    by_cases hother : h.hash ≠ hash ∨ key ≠ h.key
    · obtain ⟨front, back, rfl, hfind, hfront, hback⟩ := ih hlive
      refine ⟨n :: front, back, rfl, ?_, List.forall_mem_cons.mpr ⟨?_, hfront⟩, hback⟩
      · simp [hother, hfind]
      · rintro ⟨h', hh', hhash, hkey⟩
        obtain rfl := Option.some.inj (hh.symm.trans hh')
        rcases hother with hne | hne
        · exact hne hhash
        · exact hne hkey.symm
    · refine ⟨[], n :: chain, rfl, by simp [hother], (fun _ h => absurd h List.not_mem_nil), ?_⟩
      intro m hm
      obtain rfl := Option.some.inj hm
      rw [not_or, not_not, not_not] at hother
      exact ⟨h, hh, hother.1, hother.2.symm⟩

theorem bucket_lt (hlength : 0 < length) (hash : Nat) : HandleTable.bucket length hash < length :=
  lt_of_le_of_lt Nat.and_le_right (Nat.sub_lt hlength Nat.one_pos)

namespace Chained

theorem live (h : Chained handles length list) (hn : n ∈ list.flatten) :
    ∃ h, handles n = some h := by
  obtain ⟨chain, hchain, hn⟩ := List.mem_flatten.mp hn
  obtain ⟨i, hi⟩ := List.mem_iff_getElem?.mp hchain
  obtain ⟨h, hh, -⟩ := h.placed i chain hi n hn
  exact ⟨h, hh⟩

/-- The chain of a hash, among the others. -/
theorem split (h : Chained handles length list) (hlength : 0 < length) (hash : Nat) :
    ∃ before chain after, list = before ++ chain :: after ∧
      before.length = HandleTable.bucket length hash ∧
      list[HandleTable.bucket length hash]? = some chain := by
  have hlt : HandleTable.bucket length hash < list.length := h.buckets ▸ bucket_lt hlength hash
  refine ⟨list.take (HandleTable.bucket length hash), _,
    list.drop (HandleTable.bucket length hash + 1), ?_,
    List.length_take_of_le (Nat.le_of_lt hlt), List.getElem?_eq_getElem hlt⟩
  rw [← List.drop_eq_getElem_cons hlt, List.take_append_drop]

/-- A handle is in the chain of its hash. -/
theorem mem_chain (h : Chained handles length list) (hn : n ∈ list.flatten)
    (hnamed : Named handles key hash n)
    (hchain : list[HandleTable.bucket length hash]? = some chain) : n ∈ chain := by
  obtain ⟨chain', hchain', hmem⟩ := List.mem_flatten.mp hn
  obtain ⟨i, hi⟩ := List.mem_iff_getElem?.mp hchain'
  obtain ⟨h', hh', hbucket⟩ := h.placed i chain' hi n hmem
  obtain ⟨h'', hh'', hhash, -⟩ := hnamed
  obtain rfl := Option.some.inj (hh'.symm.trans hh'')
  rw [hhash] at hbucket
  subst hbucket
  obtain rfl := Option.some.inj (hi.symm.trans hchain)
  exact hmem

/-- One chain is replaced. -/
theorem replace {before after : List (List Nat)}
    (h : Chained handles length (before ++ chain :: after)) {chain' : List Nat}
    (hchain' : ∀ n ∈ chain', n ∈ chain ∨
      ∃ h, handles n = some h ∧ HandleTable.bucket length h.hash = before.length) :
    Chained handles length (before ++ chain' :: after) := by
  have hchain : (before ++ chain :: after)[before.length]? = some chain := by simp
  refine ⟨by simpa using h.buckets, fun i c hi n hn => ?_⟩
  rcases Nat.lt_trichotomy i before.length with hlt | rfl | hgt
  · refine h.placed i c ?_ n hn
    rw [List.getElem?_append_left hlt] at hi ⊢
    exact hi
  · rw [List.getElem?_append_right le_rfl, Nat.sub_self, List.getElem?_cons_zero] at hi
    obtain rfl := Option.some.inj hi
    rcases hchain' n hn with hn | hbucket
    · exact h.placed before.length chain hchain n hn
    · exact hbucket
  · refine h.placed i c ?_ n hn
    rw [List.getElem?_append_right (Nat.le_of_lt hgt)] at hi ⊢
    obtain ⟨k, hk⟩ := Nat.exists_eq_add_of_lt hgt
    rw [show i - before.length = k + 1 by omega, List.getElem?_cons_succ] at hi ⊢
    exact hi

/-- Changes of a handle that keep its hash do not matter. -/
theorem congr (h : Chained handles length list)
    (hsame : ∀ n ∈ list.flatten, ∀ h, handles n = some h →
      ∃ h', handles' n = some h' ∧ h'.hash = h.hash) : Chained handles' length list := by
  refine ⟨h.buckets, fun i chain hi n hn => ?_⟩
  obtain ⟨e, he, hbucket⟩ := h.placed i chain hi n hn
  obtain ⟨e', he', hhash⟩ :=
    hsame n (List.mem_flatten.mpr ⟨chain, List.mem_of_getElem? hi, hn⟩) e he
  exact ⟨e', he', hhash ▸ hbucket⟩

end Chained

section Resize

/-- Doubling ends at a power of two that is large enough, or never. -/
theorem newLength_spec {elems k fuel r : Nat} (hk : k ≤ 31)
    (h : HandleTable.newLength elems fuel (2 ^ k) = some r) : elems ≤ r ∧ 0 < r ∧ r ≤ 2 ^ 31 := by
  induction fuel generalizing k with
  | zero => exact nomatch h
  | succ fuel ih =>
    rw [HandleTable.newLength] at h
    split at h
    · rename_i hlt
      rw [← Nat.pow_succ] at h
      rcases Nat.lt_or_eq_of_le hk with hk | rfl
      · rw [Nat.mod_eq_of_lt (Nat.pow_lt_pow_right (by decide) (by omega))] at h
        exact ih hk h
      · -- the new length has become zero, and stays so
        rw [Nat.mod_self] at h
        have hzero : ∀ fuel, HandleTable.newLength elems fuel 0 = none := by
          intro fuel
          induction fuel with
          | zero => rfl
          | succ fuel ih =>
            rw [HandleTable.newLength, if_pos (Nat.zero_lt_of_lt hlt)]
            exact ih
        exact nomatch (hzero fuel).symm.trans h
    · obtain rfl := Option.some.inj h
      exact ⟨by omega, Nat.two_pow_pos k, Nat.pow_le_pow_right (by decide) hk⟩

theorem newLength_isSome {elems k fuel : Nat} (helems : elems ≤ 2 ^ 31) (hk : k ≤ 31)
    (hfuel : 31 < fuel + k) : ∃ r, HandleTable.newLength elems fuel (2 ^ k) = some r := by
  induction fuel generalizing k with
  | zero => omega
  | succ fuel ih =>
    rw [HandleTable.newLength]
    split
    · rename_i hlt
      have hk' : k < 31 := by
        rcases Nat.lt_or_eq_of_le hk with hk | rfl
        · exact hk
        · omega
      rw [← Nat.pow_succ, Nat.mod_eq_of_lt (Nat.pow_lt_pow_right (by decide) (by omega))]
      exact ih hk' (by omega)
    · exact ⟨_, rfl⟩

theorem modify_append (before after : List (List Nat)) (f : List Nat → List Nat) :
    (before ++ chain :: after).modify before.length f = before ++ f chain :: after := by
  induction before with
  | nil => rfl
  | cons c before ih =>
    rw [List.cons_append, List.length_cons, List.modify_succ_cons, ih]
    rfl

/-- The handles that are put into new chains are in them, each in the one of its hash. -/
theorem rehash_spec {l : List Nat} (hlive : ∀ n ∈ l, ∃ h, handles n = some h) (hlength : 0 < length)
    (hlist : Chained handles length list) : ∃ list',
      l.foldlM (HandleTable.rehash handles length) list = some list' ∧
        Chained handles length list' ∧ list'.flatten.Perm (l ++ list.flatten) := by
  induction l generalizing list with
  | nil => exact ⟨list, rfl, hlist, .refl _⟩
  | cons n l ih =>
    obtain ⟨⟨h, hh⟩, hlive⟩ := List.forall_mem_cons.mp hlive
    obtain ⟨before, chain, after, rfl, hbefore, -⟩ := hlist.split hlength h.hash
    have hmodify : (before ++ chain :: after).modify (HandleTable.bucket length h.hash) (n :: ·) =
        before ++ (n :: chain) :: after := by
      rw [← hbefore]
      exact modify_append before after (n :: ·)
    have hreplace : Chained handles length (before ++ (n :: chain) :: after) := by
      refine hlist.replace fun m hm => ?_
      rcases List.mem_cons.mp hm with rfl | hm
      · exact .inr ⟨h, hh, hbefore.symm⟩
      · exact .inl hm
    obtain ⟨list', hfold, hchained, hperm⟩ := ih hlive hreplace
    refine ⟨list', ?_, hchained, hperm.trans ?_⟩
    · rw [List.foldlM_cons, HandleTable.rehash, hh]
      simpa [hmodify] using hfold
    · rw [List.flatten_append, List.flatten_append, List.flatten_cons, List.flatten_cons,
        List.cons_append, List.cons_append, ← List.append_assoc, ← List.append_assoc]
      exact List.perm_middle

end Resize

section Names

variable {h : LRUHandle} {l l' : List Nat}

theorem named_iff (hn : handles n = some h) :
    Named handles key hash n ↔ h.hash = hash ∧ h.key = key := by
  constructor
  · rintro ⟨h', hn', hhash, hkey⟩
    obtain rfl := Option.some.inj (hn.symm.trans hn')
    exact ⟨hhash, hkey⟩
  · rintro ⟨hhash, hkey⟩
    exact ⟨h, hn, hhash, hkey⟩

theorem UniqueNames.subset (hl : UniqueNames handles l) (hsub : l' ⊆ l) : UniqueNames handles l' :=
  fun n hn m hm => hl n (hsub hn) m (hsub hm)

theorem UniqueNames.cons (hl : UniqueNames handles l) (hn : handles n = some h)
    (hother : ∀ m ∈ l, ¬ Named handles h.key h.hash m) : UniqueNames handles (n :: l) := by
  intro a ha b hb key hash hna hnb
  rcases List.mem_cons.mp ha with rfl | ha' <;> rcases List.mem_cons.mp hb with rfl | hb'
  · rfl
  · obtain ⟨rfl, rfl⟩ := (named_iff hn).mp hna
    exact absurd hnb (hother b hb')
  · obtain ⟨rfl, rfl⟩ := (named_iff hn).mp hnb
    exact absurd hna (hother a ha')
  · exact hl a ha' b hb' key hash hna hnb

/-- Without one of them, no handle has its name. -/
theorem UniqueNames.not_named (hl : UniqueNames handles l) (hnodup : l.Nodup)
    (hperm : l.Perm (n :: l')) (hn : Named handles key hash n) :
    ∀ m ∈ l', ¬ Named handles key hash m := by
  intro m hm hnamed
  obtain rfl := hl n (hperm.mem_iff.mpr List.mem_cons_self) m
    (hperm.mem_iff.mpr (List.mem_cons_of_mem _ hm)) key hash hn hnamed
  exact (List.nodup_cons.mp (hperm.nodup hnodup)).1 hm

end Names

end Chains

namespace HandleTable

variable {handles handles' : Handles} {t : HandleTable} {key : Bytes} {hash n : Nat} {h : LRUHandle}

/-- `Resize` keeps the members; it has no end if there are too many. -/
theorem resize_spec (hchained : Chained handles t.length t.list)
    (helems : t.elems = t.members.length) (hnodup : t.members.Nodup)
    (hunique : UniqueNames handles t.members) :
    (t.resize handles = none ∧ 2 ^ 31 < t.elems) ∨ ∃ t', t.resize handles = some t' ∧
      TableOk handles t' ∧ t'.members.Perm t.members := by
  rw [resize]
  cases hlength : newLength t.elems 32 4 with
  | none =>
    refine .inl ⟨rfl, ?_⟩
    by_contra hle
    obtain ⟨r, hr⟩ := @newLength_isSome t.elems 2 32 (by omega) (by decide) (by decide)
    exact nomatch hlength.symm.trans hr
  | some length =>
    obtain ⟨hload, hpos, hbound⟩ := @newLength_spec t.elems 2 32 length (by decide) hlength
    have hempty : Chained handles length (List.replicate length []) := by
      refine ⟨List.length_replicate, fun i chain hi n hn => ?_⟩
      obtain rfl := List.eq_of_mem_replicate (List.mem_of_getElem? hi)
      exact absurd hn List.not_mem_nil
    obtain ⟨list, hfold, hlist, hperm⟩ := rehash_spec (fun n hn => hchained.live hn) hpos hempty
    have hflatten : (List.replicate length ([] : List Nat)).flatten = [] := by simp
    rw [hflatten, List.append_nil] at hperm
    refine .inr ⟨⟨length, t.elems, list⟩, ?_, ?_, hperm⟩
    · simp only [Option.bind_eq_bind, Option.bind_some, hfold]
      exact if_pos helems
    · refine ⟨hpos, hbound, hlist, helems.trans hperm.length_eq.symm, hload,
        hperm.nodup_iff.mpr hnodup, hunique.subset hperm.subset⟩

/-- A handle in one of the chains, and the others. -/
theorem flatten_perm (before after : List (List Nat)) (front rest : List Nat) (n : Nat) :
    (before ++ (front ++ n :: rest) :: after).flatten.Perm
      (n :: (before ++ (front ++ rest) :: after).flatten) := by
  simp only [List.flatten_append, List.flatten_cons, List.append_assoc, List.cons_append]
  rw [← List.append_assoc, ← List.append_assoc]
  exact List.perm_middle

/-- Where the search in the chain of a hash ends: at the one member with the key and the hash, or at
the end of the chain if there is none. -/
theorem find_spec (ok : TableOk handles t) (key : Bytes) (hash : Nat) :
    ∃ before front back after, t.list = before ++ (front ++ back) :: after ∧
      before.length = bucket t.length hash ∧
      t.list[bucket t.length hash]? = some (front ++ back) ∧
      findPointer handles key hash (front ++ back) = some front.length ∧
      (front ++ back)[front.length]? = back.head? ∧
      ((∃ n rest, back = n :: rest ∧ Named handles key hash n) ∨
        (back = [] ∧ ∀ n ∈ t.members, ¬ Named handles key hash n)) := by
  obtain ⟨before, chain, after, hlist, hbefore, hchain⟩ := ok.chained.split ok.pos hash
  have hlive : ∀ n ∈ chain, ∃ h, handles n = some h := fun n hn =>
    ok.chained.live (List.mem_flatten.mpr ⟨chain, List.mem_of_getElem? hchain, hn⟩)
  obtain ⟨front, back, rfl, hfind, hfront, hback⟩ := @findPointer_spec handles key hash _ hlive
  refine ⟨before, front, back, after, hlist, hbefore, hchain, hfind, ?_, ?_⟩
  · rw [List.getElem?_append_right le_rfl, Nat.sub_self, List.head?_eq_getElem?]
  · cases back with
    | nil =>
      refine .inr ⟨rfl, fun n hn hnamed => ?_⟩
      have hmem := ok.chained.mem_chain hn hnamed hchain
      rw [List.append_nil] at hmem
      exact hfront n hmem hnamed
    | cons n rest => exact .inl ⟨n, rest, rfl, hback n rfl⟩

theorem lookup_spec (ok : TableOk handles t) (key : Bytes) (hash : Nat) :
    (∃ n ∈ t.members, Named handles key hash n ∧ t.lookup handles key hash = some (some n)) ∨
      ((∀ n ∈ t.members, ¬ Named handles key hash n) ∧ t.lookup handles key hash = some none) := by
  obtain ⟨before, front, back, after, hlist, -, hchain, hfind, hptr, hfound⟩ :=
    find_spec ok key hash
  have hlookup : t.lookup handles key hash = some back.head? := by
    simp only [lookup, hchain, hfind, hptr, Option.bind_eq_bind, Option.bind_some, Option.pure_def]
  rw [hlookup]
  rcases hfound with ⟨n, rest, rfl, hnamed⟩ | ⟨rfl, hnone⟩
  · refine .inl ⟨n, ?_, hnamed, rfl⟩
    rw [members, hlist]
    simp
  · exact .inr ⟨hnone, rfl⟩

/-- A changed chain, when the rest of the invariant is told by the members. -/
theorem set_spec {before after : List (List Nat)} {chain chain' : List Nat} (ok : TableOk handles t)
    (hlist : t.list = before ++ chain :: after) (hbefore : before.length = bucket t.length hash)
    (hchain' : ∀ n ∈ chain', n ∈ chain ∨
      ∃ h, handles n = some h ∧ bucket t.length h.hash = before.length) :
    t.list.set (bucket t.length hash) chain' = before ++ chain' :: after ∧
      Chained handles t.length (t.list.set (bucket t.length hash) chain') := by
  have hset : t.list.set (bucket t.length hash) chain' = before ++ chain' :: after := by
    rw [hlist, ← hbefore, List.set_append_right _ _ le_rfl, Nat.sub_self, List.set_cons_zero]
  have hchained := ok.chained
  rw [hlist] at hchained
  rw [hset]
  exact ⟨rfl, hchained.replace hchain'⟩

/-- `Remove` takes out the member with the key and the hash, if there is one. -/
theorem remove_spec (ok : TableOk handles t) (key : Bytes) (hash : Nat) :
    (∃ n rest t', t.members.Perm (n :: rest) ∧ Named handles key hash n ∧
        t.remove handles key hash = some (t', some n) ∧ TableOk handles t' ∧
        t'.members.Perm rest) ∨
      ((∀ n ∈ t.members, ¬ Named handles key hash n) ∧
        t.remove handles key hash = some (t, none)) := by
  obtain ⟨before, front, back, after, hlist, hbefore, hchain, hfind, hptr, hfound⟩ :=
    find_spec ok key hash
  rcases hfound with ⟨n, rest, rfl, hnamed⟩ | ⟨rfl, hnone⟩
  · have herase : (front ++ n :: rest).eraseIdx front.length = front ++ rest := by
      rw [List.eraseIdx_append_of_length_le le_rfl, Nat.sub_self, List.eraseIdx_cons_zero]
    obtain ⟨hset, hchained⟩ := @set_spec _ _ _ _ _ _ (front ++ rest) ok hlist hbefore fun m hm =>
      .inl (by
        rw [List.mem_append] at hm ⊢
        exact hm.imp_right (List.mem_cons_of_mem n))
    have hmembers : t.members.Perm (n :: (before ++ (front ++ rest) :: after).flatten) := by
      rw [members, hlist]
      exact flatten_perm before after front rest n
    have helems : t.elems = (before ++ (front ++ rest) :: after).flatten.length + 1 := by
      rw [ok.elems, hmembers.length_eq, List.length_cons]
    have hbound := ok.load.trans ok.bound
    refine .inl ⟨n, _, ⟨t.length, (t.elems + 2 ^ 32 - 1) % 2 ^ 32,
      t.list.set (bucket t.length hash) (front ++ rest)⟩, hmembers, hnamed, ?_, ?_, ?_⟩
    · simp only [remove, hchain, hfind, hptr, herase, Option.bind_eq_bind, Option.bind_some,
        Option.pure_def, List.head?_cons, Option.isSome_some, if_true]
    · have hmembers' : (⟨t.length, (t.elems + 2 ^ 32 - 1) % 2 ^ 32,
          t.list.set (bucket t.length hash) (front ++ rest)⟩ : HandleTable).members =
          (before ++ (front ++ rest) :: after).flatten := by rw [members, hset]
      have hload := ok.load
      refine ⟨ok.pos, ok.bound, hchained, ?_, ?_, ?_, ?_⟩
      · rw [hmembers']
        change (t.elems + 2 ^ 32 - 1) % 2 ^ 32 = _
        omega
      · change (t.elems + 2 ^ 32 - 1) % 2 ^ 32 ≤ t.length
        omega
      · rw [hmembers']
        exact (List.nodup_cons.mp (hmembers.nodup ok.nodup)).2
      · rw [hmembers']
        exact ok.unique.subset fun m hm => hmembers.mem_iff.mpr (List.mem_cons_of_mem n hm)
    · rw [members, hset]
  · refine .inr ⟨hnone, ?_⟩
    simp only [remove, hchain, hfind, hptr, Option.bind_eq_bind, Option.bind_some,
      Option.pure_def, List.head?_nil, Option.isSome_none, if_false, Bool.false_eq_true]

/-- `Insert` puts a handle in the place of the member with its key and hash, or besides all members
if there is none; then the table may have to grow, which has no end if there are too many. -/
theorem insert_spec (ok : TableOk handles t) (hn : handles n = some h) (hfresh : n ∉ t.members) :
    (∃ old rest t', t.members.Perm (old :: rest) ∧ Named handles h.key h.hash old ∧
        t.insert handles n = some (t', some old) ∧ TableOk handles t' ∧
        t'.members.Perm (n :: rest)) ∨
      ((∀ m ∈ t.members, ¬ Named handles h.key h.hash m) ∧
        ((t.insert handles n = none ∧ 2 ^ 31 ≤ t.elems) ∨ ∃ t',
          t.insert handles n = some (t', none) ∧ TableOk handles t' ∧
          t'.members.Perm (n :: t.members))) := by
  obtain ⟨before, front, back, after, hlist, hbefore, hchain, hfind, hptr, hfound⟩ :=
    find_spec ok h.key h.hash
  have htake : (front ++ back).take front.length = front := by simp
  have hdrop : (front ++ back).drop (front.length + 1) = back.tail := by
    rw [← List.tail_drop, List.drop_left]
  obtain ⟨hset, hchained⟩ := @set_spec _ _ _ _ _ _ (front ++ n :: back.tail) ok hlist hbefore
    fun m hm => by
      rcases List.mem_append.mp hm with hm | hm
      · exact .inl (List.mem_append_left _ hm)
      · rcases List.mem_cons.mp hm with rfl | hm
        · exact .inr ⟨h, hn, hbefore.symm⟩
        · exact .inl (List.mem_append_right _ (List.mem_of_mem_tail hm))
  have hperm := flatten_perm before after front back.tail n
  rw [← hset] at hperm
  rcases hfound with ⟨old, rest, rfl, hnamed⟩ | ⟨rfl, hnone⟩
  · have hmembers : t.members.Perm (old :: (before ++ (front ++ rest) :: after).flatten) := by
      rw [members, hlist]
      exact flatten_perm before after front rest old
    refine .inl ⟨old, _,
      { t with list := t.list.set (bucket t.length h.hash) (front ++ n :: rest) }, hmembers,
      hnamed, ?_, ⟨ok.pos, ok.bound, hchained, ?_, ok.load, ?_, ?_⟩, hperm⟩
    · simp only [insert, hn, hchain, hfind, hptr, htake, hdrop, Option.bind_eq_bind,
        Option.bind_some, Option.pure_def, List.head?_cons, Option.isNone_some, List.tail_cons,
        if_false, Bool.false_eq_true]
    · rw [ok.elems, hmembers.length_eq]
      exact hperm.length_eq.symm
    · refine hperm.nodup_iff.mpr (List.nodup_cons.mpr ⟨fun hmem => hfresh ?_, ?_⟩)
      · exact hmembers.mem_iff.mpr (List.mem_cons_of_mem _ hmem)
      · exact (List.nodup_cons.mp (hmembers.nodup ok.nodup)).2
    · have hrest := ok.unique.subset fun m
          (hm : m ∈ (before ++ (front ++ rest) :: after).flatten) =>
        hmembers.mem_iff.mpr (List.mem_cons_of_mem old hm)
      exact (hrest.cons hn (ok.unique.not_named ok.nodup hmembers hnamed)).subset hperm.subset
  · refine .inr ⟨hnone, ?_⟩
    have hmembers : t.members = (before ++ (front ++ [].tail) :: after).flatten := by
      rw [members, hlist]
      rfl
    rw [← hmembers] at hperm
    have hload := ok.load
    have hbound := ok.bound
    have helems : (t.elems + 1) % 2 ^ 32 = t.elems + 1 := by omega
    have hlength : t.elems + 1 =
        (t.list.set (bucket t.length h.hash) (front ++ n :: [].tail)).flatten.length := by
      rw [hperm.length_eq, List.length_cons, ok.elems]
    have hnodup := hperm.nodup_iff.mpr (List.nodup_cons.mpr ⟨hfresh, ok.nodup⟩)
    have hunique := (ok.unique.cons hn hnone).subset hperm.subset
    have hinsert : t.insert handles n =
        if t.length < t.elems + 1 then
          (HandleTable.resize handles ⟨t.length, t.elems + 1,
            t.list.set (bucket t.length h.hash) (front ++ n :: [].tail)⟩).bind fun t' =>
              some (t', none)
        else some (⟨t.length, t.elems + 1,
          t.list.set (bucket t.length h.hash) (front ++ n :: [].tail)⟩, none) := by
      simp only [insert, hn, hchain, hfind, hptr, htake, hdrop, helems, Option.bind_eq_bind,
        Option.bind_some, Option.pure_def, List.head?_nil, Option.isNone_none, if_true]
    rw [hinsert]
    split
    · rcases resize_spec (t := ⟨t.length, t.elems + 1, _⟩) hchained hlength hnodup hunique with
        ⟨hresize, hmany⟩ | ⟨t', hresize, ok', hperm'⟩
      · rw [hresize]
        exact .inl ⟨rfl, by dsimp only at hmany; omega⟩
      · rw [hresize]
        exact .inr ⟨t', rfl, ok', hperm'.trans hperm⟩
    · rename_i hfits
      exact .inr ⟨_, rfl, ⟨ok.pos, ok.bound, hchained, hlength, Nat.le_of_not_lt hfits, hnodup,
        hunique⟩, hperm⟩

end HandleTable

theorem tableOk_new (handles : Handles) : TableOk handles .new := by
  have hmembers : HandleTable.new.members = [] := rfl
  refine ⟨by decide, by decide, ⟨rfl, fun i chain hi n hn => ?_⟩, rfl, by decide, .nil, ?_⟩
  · have hchain : chain = [] := by
      have hmem := List.mem_of_getElem? hi
      simpa [HandleTable.new] using hmem
    exact absurd (hchain ▸ hn) List.not_mem_nil
  · rw [hmembers]
    exact fun n hn => absurd hn List.not_mem_nil

/-- Changes of the handles that keep the keys and hashes of the members do not matter. -/
theorem TableOk.congr {handles handles' : Handles} {t : HandleTable} (ok : TableOk handles t)
    (hsame : ∀ n ∈ t.members, ∀ h, handles n = some h →
      ∃ h', handles' n = some h' ∧ h'.hash = h.hash ∧ h'.key = h.key) : TableOk handles' t := by
  refine { ok with chained := ok.chained.congr fun n hn h hh => ?_, unique := ?_ }
  · obtain ⟨h', hh', hhash, -⟩ := hsame n hn h hh
    exact ⟨h', hh', hhash⟩
  · have hback : ∀ n ∈ t.members, ∀ key hash, Named handles' key hash n →
        Named handles key hash n := by
      intro n hn key hash hnamed
      obtain ⟨h, hh⟩ := ok.chained.live hn
      obtain ⟨h', hh', hhash, hkey⟩ := hsame n hn h hh
      obtain ⟨rfl, rfl⟩ := (named_iff hh').mp hnamed
      exact ⟨h, hh, hhash.symm, hkey.symm⟩
    exact fun n hn m hm key hash hnn hnm =>
      ok.unique n hn m hm key hash (hback n hn key hash hnn) (hback m hm key hash hnm)

end WiscKey
