import WiscKey.Flash.Ftl
import WiscKey.Library.Outcome
import WiscKey.Trace.State

/-!
# Replaying the trace

`WritewithFTL` replays one operation of the trace on the translation layer. It takes the
operation's numbers for sectors and rounds them to clusters of the device, the last one
included. Replays never lose a cluster that is stored.
-/

namespace WiscKey

open Flash

namespace Operation

variable (ratio : Nat) (op : Operation)

/-- `StartCluster`, in the units of the device. -/
def deviceStart : Int := op.startCluster.tdiv ratio

/-- `Length`, in the units of the device: it ends at the cluster of the last sector. -/
def deviceLength : Int := (op.startCluster - 1 + op.length).tdiv ratio - op.deviceStart ratio + 1

/-- The clusters from `StartCluster` up to `StartCluster + Length`. -/
def clusters : List Int :=
  (List.range (op.deviceLength ratio).toNat).map fun i : Nat => op.deviceStart ratio + i

end Operation

/-- A cluster that an operation uses counts as accessed, once. -/
def accessCluster (s : Ftl) (clusterID : Int) : Ftl :=
  if s.dev.accessedLogicalPageMap clusterID then s
  else { s with dev := { s.dev with
    accessedLogicalPages := s.dev.accessedLogicalPages + 1
    accessedLogicalPageMap := Function.update s.dev.accessedLogicalPageMap clusterID true } }

/-- `WritewithFTL`, and whether its loop came to the end. `maxCluster` is the size of `FTLTable`;
an index outside it is a fault. -/
def writewithFTL (g : Geometry) (maxCluster : Int) (fuel : Nat) (s : Ftl) (op : Operation) :
    Except Fault (Ftl × Bool) := do
  let clusters := op.clusters g.pageToLBARatio
  if clusters.all fun c => 0 ≤ c && c < maxCluster then
    let s := clusters.foldl accessCluster s
    match op.accessType with
    | .writeType =>
      let s ← clusters.foldlM (secureFTLWriteOneCluster g fuel) s
      .ok (s, true)
    | .readType => .ok (s, clusters.all (ftlReadOneCluster s))
  else .error .badIndex

/-- The device without its marks of accessed pages. -/
def unmarkDevice (d : Device) : Device :=
  { d with accessedLogicalPages := 0, accessedLogicalPageMap := fun _ => false }

/-- The layer without the marks of accessed pages. -/
def unmark (s : Ftl) : Ftl := { s with dev := unmarkDevice s.dev }

/-- The operations, replayed one after the other. -/
def replayOperations (g : Geometry) (maxCluster : Int) (fuel : Nat) (s : Ftl)
    (ops : List Operation) : Except Fault Ftl :=
  ops.foldlM (fun s op => (writewithFTL g maxCluster fuel s op).map Prod.fst) s

/-- A computation that succeeds has succeeded in its first part. -/
theorem exists_of_bind_eq_ok {ε α β : Type} {x : Except ε α} {f : α → Except ε β} {b : β}
    (h : x >>= f = .ok b) : ∃ a, x = .ok a ∧ f a = .ok b := by
  cases x with
  | error e => cases h
  | ok a => exact ⟨a, rfl, h⟩

/-- A cluster that is stored stays stored. -/
def KeepsMapped (s s' : Ftl) : Prop :=
  ∀ c, ftlReadOneCluster s c = true → ftlReadOneCluster s' c = true

namespace KeepsMapped

variable {g : Geometry} {s s' s'' : Ftl}

theorem refl (s : Ftl) : KeepsMapped s s := fun _ h => h

theorem trans (h : KeepsMapped s s') (h' : KeepsMapped s' s'') : KeepsMapped s s'' :=
  fun c hc => h' c (h c hc)

theorem of_ftlTable_eq (h : s'.ftlTable = s.ftlTable) : KeepsMapped s s' := by
  intro c hc
  rwa [ftlReadOneCluster, h]

/-- What every step of a loop keeps, the loop keeps. -/
theorem foldlM {α : Type} {f : Ftl → α → Except Fault Ftl}
    (hf : ∀ s a s', f s a = .ok s' → KeepsMapped s s') {l : List α}
    (h : l.foldlM f s = .ok s') : KeepsMapped s s' := by
  induction l generalizing s with
  | nil =>
    obtain rfl := Except.ok.inj h
    exact refl s
  | cons a l ih =>
    rw [List.foldlM_cons] at h
    obtain ⟨s₁, hstep, hrest⟩ := exists_of_bind_eq_ok h
    exact (hf s a s₁ hstep).trans (ih hrest)

end KeepsMapped

/-- A write that returns stores its cluster, and keeps the others. -/
theorem ftlWriteOneCluster_keeps {g : Geometry} {s s' : Ftl} {c : Int}
    (h : ftlWriteOneCluster g s c = .ok s') :
    KeepsMapped s s' ∧ ftlReadOneCluster s' c = true := by
  unfold ftlWriteOneCluster at h
  split at h
  · cases h
  · rename_i hblock
    obtain rfl := Except.ok.inj h
    have hne : s.currentFreeBlockID ≠ ftlPointToNull := by
      unfold ftlPointToNull
      omega
    have htable : (ftlProgram (ftlInvalidate s c) c).ftlTable = Function.update s.ftlTable c
        ⟨s.currentFreeBlockID, s.currentFreePageID⟩ := by
      unfold ftlInvalidate
      simp only
      split <;> rfl
    refine ⟨fun c' hc' => ?_, ?_⟩
    · rw [ftlReadOneCluster, htable]
      rcases eq_or_ne c' c with rfl | hc
      · rw [Function.update_self]
        exact decide_eq_true hne
      · rw [Function.update_of_ne hc]
        exact hc'
    · rw [ftlReadOneCluster, htable, Function.update_self]
      exact decide_eq_true hne

section Keeps

variable {g : Geometry} {s s' : Ftl} {c : Int}

theorem replaceFullBlock_keeps (h : replaceFullBlock g s = .ok s') : KeepsMapped s s' := by
  unfold replaceFullBlock at h
  split at h
  · obtain ⟨⟨block, dev⟩, -, h⟩ := exists_of_bind_eq_ok h
    obtain rfl := Except.ok.inj h
    exact .of_ftlTable_eq rfl
  · obtain rfl := Except.ok.inj h
    exact .refl s

theorem copyLivePage_keeps {blockID : Int} {i : Nat} (h : copyLivePage g blockID s i = .ok s') :
    KeepsMapped s s' := by
  obtain ⟨s₁, hreplace, h⟩ := exists_of_bind_eq_ok h
  refine (replaceFullBlock_keeps hreplace).trans ?_
  simp only at h
  split at h
  · exact (ftlWriteOneCluster_keeps h).1
  · obtain rfl := Except.ok.inj h
    exact .refl s₁

theorem ftlEraseOneBlock_keeps {blockID : Int} (h : ftlEraseOneBlock g s blockID = .ok s') :
    KeepsMapped s s' := by
  obtain ⟨s₁, hcopy, h⟩ := exists_of_bind_eq_ok h
  obtain ⟨s₂, hreplace, h⟩ := exists_of_bind_eq_ok h
  obtain rfl := Except.ok.inj h
  have hput : KeepsMapped s { s with dev := putFreeBlock g s.dev blockID } := .of_ftlTable_eq rfl
  have hloop := KeepsMapped.foldlM (fun _ _ _ => copyLivePage_keeps) hcopy
  exact ((hput.trans hloop).trans (replaceFullBlock_keeps hreplace)).trans (.of_ftlTable_eq rfl)

theorem findVictim_keeps {n : Nat} {found : Bool} (h : findVictim g s n = .ok (found, s')) :
    KeepsMapped s s' := by
  induction n generalizing s with
  | zero =>
    obtain ⟨-, rfl⟩ := Prod.mk.inj (Except.ok.inj h)
    exact .refl _
  | succ n ih =>
    simp only [findVictim] at h
    split at h
    · cases h
    · split at h
      · obtain ⟨-, rfl⟩ := Prod.mk.inj (Except.ok.inj h)
        exact .of_ftlTable_eq rfl
      · refine KeepsMapped.trans ?_ (ih h)
        exact .of_ftlTable_eq rfl

theorem ftlGarbageCollection_keeps {fuel : Nat} (h : ftlGarbageCollection g fuel s = .ok s') :
    KeepsMapped s s' := by
  induction fuel generalizing s with
  | zero => cases h
  | succ fuel ih =>
    unfold ftlGarbageCollection at h
    split at h
    · obtain rfl := Except.ok.inj h
      exact .refl s
    · obtain ⟨⟨found, s₁⟩, hscan, h⟩ := exists_of_bind_eq_ok h
      refine (findVictim_keeps hscan).trans ?_
      cases found with
      | false =>
        change ftlGarbageCollection g fuel (doubleDivider s₁) = .ok s' at h
        refine KeepsMapped.trans ?_ (ih h)
        exact .of_ftlTable_eq rfl
      | true =>
        obtain ⟨s₂, herase, h⟩ := exists_of_bind_eq_ok h
        exact (ftlEraseOneBlock_keeps herase).trans (ih h)

theorem ensureFreePage_keeps {fuel : Nat} (h : ensureFreePage g fuel s = .ok s') :
    KeepsMapped s s' := by
  induction fuel generalizing s with
  | zero => cases h
  | succ fuel ih =>
    unfold ensureFreePage at h
    split at h
    · obtain ⟨⟨block, dev⟩, -, h⟩ := exists_of_bind_eq_ok h
      simp only at h
      split at h
      · obtain ⟨s₁, hcollect, h⟩ := exists_of_bind_eq_ok h
        refine KeepsMapped.trans ?_ ((ftlGarbageCollection_keeps hcollect).trans (ih h))
        exact .of_ftlTable_eq rfl
      · refine KeepsMapped.trans ?_ (ih h)
        exact .of_ftlTable_eq rfl
    · obtain rfl := Except.ok.inj h
      exact .refl s

/-- A write of the layer that returns stores its cluster, and keeps the others. -/
theorem secureFTLWriteOneCluster_keeps {fuel : Nat}
    (h : secureFTLWriteOneCluster g fuel s c = .ok s') :
    KeepsMapped s s' ∧ ftlReadOneCluster s' c = true := by
  obtain ⟨s₁, hbefore, h⟩ := exists_of_bind_eq_ok h
  obtain ⟨s₂, hwrite, hafter⟩ := exists_of_bind_eq_ok h
  obtain ⟨hkeeps, hstored⟩ := ftlWriteOneCluster_keeps hwrite
  have hlast := ensureFreePage_keeps hafter
  exact ⟨((ensureFreePage_keeps hbefore).trans hkeeps).trans hlast, hlast c hstored⟩

/-- Writes that return store all their clusters. -/
theorem writes_keep {fuel : Nat} {cs : List Int}
    (h : cs.foldlM (secureFTLWriteOneCluster g fuel) s = .ok s') :
    KeepsMapped s s' ∧ ∀ c ∈ cs, ftlReadOneCluster s' c = true := by
  induction cs generalizing s with
  | nil =>
    obtain rfl := Except.ok.inj h
    exact ⟨.refl s, fun c hc => nomatch hc⟩
  | cons c cs ih =>
    rw [List.foldlM_cons] at h
    obtain ⟨s₁, hwrite, hrest⟩ := exists_of_bind_eq_ok h
    obtain ⟨hkeeps, hstored⟩ := secureFTLWriteOneCluster_keeps hwrite
    obtain ⟨hlater, hlist⟩ := ih hrest
    exact ⟨hkeeps.trans hlater, List.forall_mem_cons.mpr ⟨hlater c hstored, hlist⟩⟩

end Keeps

section Replay

variable {g : Geometry} {maxCluster : Int} {fuel : Nat} {s s' : Ftl} {op : Operation} {ok : Bool}

theorem foldl_accessCluster_ftlTable (cs : List Int) (s : Ftl) :
    (cs.foldl accessCluster s).ftlTable = s.ftlTable := by
  induction cs generalizing s with
  | nil => rfl
  | cons c cs ih =>
    rw [List.foldl_cons, ih, accessCluster]
    split <;> rfl

/-- An operation that returns has its clusters inside the table, keeps what is stored, and stores
what it writes. -/
theorem writewithFTL_keeps (h : writewithFTL g maxCluster fuel s op = .ok (s', ok)) :
    (∀ c ∈ op.clusters g.pageToLBARatio, 0 ≤ c ∧ c < maxCluster) ∧ KeepsMapped s s' ∧
      (op.accessType = .writeType →
        ∀ c ∈ op.clusters g.pageToLBARatio, ftlReadOneCluster s' c = true) := by
  simp only [writewithFTL] at h
  split at h
  · rename_i hinside
    have haccess := KeepsMapped.of_ftlTable_eq
      (foldl_accessCluster_ftlTable (op.clusters g.pageToLBARatio) s)
    refine ⟨by simpa using hinside, ?_⟩
    cases htype : op.accessType with
    | readType =>
      rw [htype] at h
      obtain ⟨rfl, -⟩ := Prod.mk.inj (Except.ok.inj h)
      exact ⟨haccess, fun hwrite => nomatch hwrite⟩
    | writeType =>
      rw [htype] at h
      obtain ⟨s₁, hwrites, h⟩ := exists_of_bind_eq_ok h
      obtain ⟨rfl, -⟩ := Prod.mk.inj (Except.ok.inj h)
      obtain ⟨hkeeps, hstored⟩ := writes_keep hwrites
      exact ⟨haccess.trans hkeeps, fun _ => hstored⟩
  · cases h

/-- A read whose clusters are inside the table and stored comes to the end. -/
theorem writewithFTL_read (hread : op.accessType = .readType)
    (hinside : ∀ c ∈ op.clusters g.pageToLBARatio, 0 ≤ c ∧ c < maxCluster)
    (hstored : ∀ c ∈ op.clusters g.pageToLBARatio, ftlReadOneCluster s c = true) :
    ∃ s', writewithFTL g maxCluster fuel s op = .ok (s', true) := by
  have hall : (op.clusters g.pageToLBARatio).all fun c => 0 ≤ c && c < maxCluster := by
    simpa using hinside
  have htable := foldl_accessCluster_ftlTable (op.clusters g.pageToLBARatio) s
  refine ⟨(op.clusters g.pageToLBARatio).foldl accessCluster s, ?_⟩
  simp only [writewithFTL, hall, if_true, hread]
  congr 2
  rw [List.all_eq_true]
  intro c hc
  rw [ftlReadOneCluster, htable]
  exact hstored c hc

/-- A replay keeps what is stored, and stores the clusters of its writes, which are inside. -/
theorem replayOperations_keeps {ops : List Operation}
    (h : replayOperations g maxCluster fuel s ops = .ok s') :
    KeepsMapped s s' ∧ ∀ op ∈ ops, op.accessType = .writeType →
      ∀ c ∈ op.clusters g.pageToLBARatio,
        (0 ≤ c ∧ c < maxCluster) ∧ ftlReadOneCluster s' c = true := by
  induction ops generalizing s with
  | nil =>
    obtain rfl := Except.ok.inj h
    exact ⟨.refl s, fun op hop => nomatch hop⟩
  | cons op ops ih =>
    rw [replayOperations, List.foldlM_cons] at h
    obtain ⟨s₁, hop, hrest⟩ := exists_of_bind_eq_ok h
    obtain ⟨ok, hop⟩ : ∃ ok, writewithFTL g maxCluster fuel s op = .ok (s₁, ok) := by
      cases hresult : writewithFTL g maxCluster fuel s op with
      | error e => simp [hresult, Except.map] at hop
      | ok r =>
        simp only [hresult, Except.map, Except.ok.injEq] at hop
        exact ⟨r.2, by rw [← hop]⟩
    obtain ⟨hinside, hkeeps, hstored⟩ := writewithFTL_keeps hop
    obtain ⟨hlater, hlist⟩ := ih hrest
    refine ⟨hkeeps.trans hlater, List.forall_mem_cons.mpr ⟨fun hwrite c hc => ?_, hlist⟩⟩
    exact ⟨hinside c hc, hlater c (hstored hwrite c hc)⟩

end Replay

/-! ## The marks of accessed pages

No step of a write reads the marks, so that a write goes the same way without them. -/

section Marks

variable (g : Geometry) (s : Ftl)

theorem getFreeBlock_unmark (fromGcRequest : Bool) (d : Device) :
    (getFreeBlock g fromGcRequest d).map (Prod.map id unmarkDevice) =
      getFreeBlock g fromGcRequest (unmarkDevice d) := by
  have htake : (takeFreeBlock g d).map (Prod.map id unmarkDevice) =
      takeFreeBlock g (unmarkDevice d) := by
    unfold takeFreeBlock
    simp only [apply_ite (Except.map (Prod.map id unmarkDevice))]
    rfl
  unfold getFreeBlock
  simp only [apply_ite (Except.map (Prod.map id unmarkDevice)), htake]
  rfl

theorem replaceFullBlock_unmark :
    (replaceFullBlock g s).map unmark = replaceFullBlock g (unmark s) := by
  unfold replaceFullBlock
  rw [apply_ite (Except.map unmark)]
  exact if_congr Iff.rfl (map_bind_eq (getFreeBlock_unmark g false s.dev) fun _ => rfl) rfl

theorem ftlWriteOneCluster_unmark (c : Int) :
    (ftlWriteOneCluster g s c).map unmark = ftlWriteOneCluster g (unmark s) c := by
  have hforget : unmark (ftlInvalidate s c) = ftlInvalidate (unmark s) c := by
    unfold ftlInvalidate
    simp only [apply_ite unmark]
    rfl
  unfold ftlWriteOneCluster
  rw [← hforget]
  simp only [apply_ite (Except.map unmark)]
  rfl

theorem copyLivePage_unmark (b : Int) (i : Nat) :
    (copyLivePage g b s i).map unmark = copyLivePage g b (unmark s) i := by
  refine map_bind_eq (replaceFullBlock_unmark g s) fun s₁ => ?_
  simp only [apply_ite (Except.map unmark), ftlWriteOneCluster_unmark]
  rfl

theorem ftlEraseOneBlock_unmark (b : Int) :
    (ftlEraseOneBlock g s b).map unmark = ftlEraseOneBlock g (unmark s) b := by
  refine map_bind_eq (foldlM_map (fun s i => copyLivePage_unmark g s b i) (List.range g.maxPage)
    { s with dev := putFreeBlock g s.dev b }) fun s₁ => ?_
  exact map_bind_eq (replaceFullBlock_unmark g s₁) fun _ => rfl

theorem findVictim_unmark (n : Nat) :
    (findVictim g s n).map (Prod.map id unmark) = findVictim g (unmark s) n := by
  induction n generalizing s with
  | zero => rfl
  | succ n ih =>
    have hnext := ih { s with
      currentScanningBlockID := (s.currentScanningBlockID + 1).tmod g.maxBlock }
    simp only [findVictim, apply_ite (Except.map (Prod.map id unmark)), hnext]
    rfl

theorem ftlGarbageCollection_unmark (fuel : Nat) :
    (ftlGarbageCollection g fuel s).map unmark = ftlGarbageCollection g fuel (unmark s) := by
  induction fuel generalizing s with
  | zero => rfl
  | succ fuel ih =>
    unfold ftlGarbageCollection
    rw [apply_ite (Except.map unmark)]
    refine if_congr Iff.rfl rfl (map_bind_eq (findVictim_unmark g s g.maxBlock) ?_)
    rintro ⟨found, s₁⟩
    cases found with
    | false => exact ih (doubleDivider s₁)
    | true => exact map_bind_eq (ftlEraseOneBlock_unmark g s₁ s₁.currentScanningBlockID) ih

theorem ensureFreePage_unmark (fuel : Nat) :
    (ensureFreePage g fuel s).map unmark = ensureFreePage g fuel (unmark s) := by
  induction fuel generalizing s with
  | zero => rfl
  | succ fuel ih =>
    unfold ensureFreePage
    rw [apply_ite (Except.map unmark)]
    refine if_congr Iff.rfl (map_bind_eq (getFreeBlock_unmark g false s.dev) ?_) rfl
    rintro ⟨block, dev⟩
    simp only [apply_ite (Except.map unmark)]
    refine if_congr Iff.rfl ?_ ?_
    · exact map_bind_eq
        (ftlGarbageCollection_unmark g { s with dev, currentFreeBlockID := block } fuel) ih
    · exact ih { s with dev, currentFreeBlockID := block, currentFreePageID := 0 }

/-- A write goes the same way without the marks. -/
theorem secureFTLWriteOneCluster_unmark (fuel : Nat) (c : Int) :
    (secureFTLWriteOneCluster g fuel s c).map unmark =
      secureFTLWriteOneCluster g fuel (unmark s) c := by
  refine map_bind_eq (ensureFreePage_unmark g s fuel) fun s₁ => ?_
  exact map_bind_eq (ftlWriteOneCluster_unmark g s₁ c) fun s₂ => ensureFreePage_unmark g s₂ fuel

theorem unmark_foldl_accessCluster (cs : List Int) :
    unmark (cs.foldl accessCluster s) = unmark s := by
  induction cs generalizing s with
  | nil => rfl
  | cons c cs ih =>
    rw [List.foldl_cons, ih, accessCluster]
    split <;> rfl

end Marks

end WiscKey
