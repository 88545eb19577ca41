import WiscKey.Beyond.Create
import Mathlib.Data.List.Induction

/-!
# The latest write of an LBA

After a run of calls, the extents of the tree have each LBA that was written, at the place that the
last call with it has given. A run goes wrong where the removal takes all nodes.
-/

namespace WiscKey.Beyond

/-- The place that the last call with an LBA has given to it. -/
def latest (maxSubPage : Int) (calls : List Call) (x : Int) : Option (Int × Int) :=
  calls.foldl (fun place c =>
    if c.extent.lba ≤ x ∧ x < c.extent.lba + c.extent.length then
      some (c.extent.place maxSubPage x)
    else place) none

theorem latest_concat (maxSubPage : Int) (calls : List Call) (c : Call) (x : Int) :
    latest maxSubPage (calls ++ [c]) x =
      if c.extent.lba ≤ x ∧ x < c.extent.lba + c.extent.length then
        some (c.extent.place maxSubPage x)
      else latest maxSubPage calls x := by
  rw [latest, List.foldl_append]
  rfl

namespace VirtualRegion

variable {g : FlashSize} {s s' : VirtualRegion} {c : Call} {calls : List Call}

/-- The tree represents the latest writes. -/
structure Represents (g : FlashSize) (s : VirtualRegion) (calls : List Call) : Prop where
  ordered : s.Ordered
  place : ∀ x place, (∃ e ∈ s.extents (inorder s.mrmTreeRoot), e.Covers x ∧
    e.place g.maxSubPage x = place) ↔ latest g.maxSubPage calls x = some place
  nodeCount : s.nodeCount = (inorder s.mrmTreeRoot).length
  validSubPage : s.validSubPage = total (s.extents (inorder s.mrmTreeRoot))

/-- A written extent is the latest one of its LBAs, and the others are as before. -/
theorem Represents.written (h : s.Represents g calls) (hw : Written g c s s') :
    s'.Represents g (calls ++ [c]) := by
  obtain ⟨xs, ys, hsplit, hapart, hreplaced⟩ := hw
  have hall : s'.extents (inorder s'.mrmTreeRoot) = xs ++ c.extent :: ys :=
    hreplaced.extents_place rfl
  refine ⟨hreplaced.ordered (by simpa [TreePath.before, TreePath.after] using hapart), ?_, ?_, ?_⟩
  · intro x place
    rw [latest_concat, hall]
    have hmem : ∀ e, e ∈ xs ++ c.extent :: ys ↔ e = c.extent ∨ e ∈ removed g.maxSubPage
        c.extent.lba c.extent.length (s.extents (inorder s.mrmTreeRoot)) := by
      intro e
      rw [← hsplit]
      simp only [List.mem_append, List.mem_cons]
      tauto
    by_cases hx : c.extent.lba ≤ x ∧ x < c.extent.lba + c.extent.length
    · rw [if_pos hx]
      constructor
      · rintro ⟨e, he, hcovers, hplace⟩
        rcases (hmem e).mp he with rfl | he
        · rw [hplace]
        · -- what is left of the others does not have the LBA
          unfold Extent.Covers at hcovers
          rcases h.ordered.apart.clear_of_mem_removed he with hclear | hclear
          all_goals omega
      · intro hplace
        exact ⟨c.extent, (hmem _).mpr (.inl rfl), hx, Option.some.inj hplace⟩
    · rw [if_neg hx, ← h.place]
      constructor
      · rintro ⟨e, he, hcovers, hplace⟩
        rcases (hmem e).mp he with rfl | he
        · exact absurd hcovers hx
        · obtain ⟨f, hf, hfe⟩ := mem_removed.mp he
          obtain ⟨-, hfirst, hlast, -, hsame⟩ :=
            Extent.mem_without (h.ordered.apart.positive f hf) hfe
          unfold Extent.Covers at hcovers
          exact ⟨f, hf, ⟨by omega, by omega⟩, by rw [← hsame, hplace]⟩
      · rintro ⟨f, hf, hcovers, hplace⟩
        obtain ⟨e, he, hcovers'⟩ := @Extent.exists_mem_without g.maxSubPage c.extent.lba
          c.extent.length x f hcovers (by omega)
        have hsame := (Extent.mem_without (h.ordered.apart.positive f hf) he).2.2.2.2 x
        exact ⟨e, (hmem e).mpr (.inr (mem_removed.mpr ⟨f, hf, he⟩)), hcovers',
          by rw [hsame, hplace]⟩
  · have hnodes := hreplaced.nodes
    have hbefore := h.nodeCount
    simp only [nodeBalance] at hnodes
    omega
  · have hpages := hreplaced.pages
    have hbefore := h.validSubPage
    simp only [pageBalance] at hpages
    omega

/-- A call that neither evicts a region from SRAM nor takes all nodes of the tree. -/
structure Regular (g : FlashSize) (s : VirtualRegion) (c : Call) : Prop where
  accepted : c.Accepted g
  hasRoom : s.HasRoom c.lruPos
  safe : ¬ s.TakesAll c.extent.lba c.extent.length

/-- A step of a run. -/
theorem Represents.createMrMNode (h : s.Represents g calls) (hc : Regular g s c) :
    ∃ s', s.createMrMNode g c = .ok s' ∧ s'.Represents g (calls ++ [c]) := by
  obtain ⟨s', hstep, hwritten⟩ := written_createMrMNode hc.accepted h.ordered
    (by rw [nodeBalance, h.nodeCount, sub_self]) hc.hasRoom hc.safe
  exact ⟨s', hstep, h.written hwritten⟩

theorem represents_init (g : FlashSize) (usedPageBuffer currBlock blockCount freeSize : Int)
    (freeSubPageCnt validSubPageCnt invalidSubPageCnt elementSize : Int → Int) :
    (init usedPageBuffer currBlock blockCount freeSubPageCnt validSubPageCnt invalidSubPageCnt
      freeSize elementSize).Represents g [] := by
  refine ⟨⟨List.nodup_nil, ⟨?_, List.Pairwise.nil⟩⟩, fun x place => ?_, rfl, rfl⟩
  · exact fun e he => absurd he List.not_mem_nil
  · simp [init, inorder, latest]

/-- In a run whose calls are all regular for the tree they find, every call returns and the tree
represents the latest writes after each of them. -/
theorem run_represents (g : FlashSize) (usedPageBuffer currBlock blockCount freeSize : Int)
    (freeSubPageCnt validSubPageCnt invalidSubPageCnt elementSize : Int → Int) (calls : List Call)
    (hregular : ∀ done c rest s, calls = done ++ c :: rest →
      run g (init usedPageBuffer currBlock blockCount freeSubPageCnt validSubPageCnt
        invalidSubPageCnt freeSize elementSize) done = .ok s → Regular g s c) :
    ∀ done, done <+: calls → ∃ s, run g (init usedPageBuffer currBlock blockCount freeSubPageCnt
      validSubPageCnt invalidSubPageCnt freeSize elementSize) done = .ok s ∧
        s.Represents g done := by
  intro done
  induction done using List.reverseRecOn with
  | nil => exact fun _ => ⟨_, rfl, represents_init g ..⟩
  | append_singleton done c ih =>
    rintro ⟨rest, rfl⟩
    obtain ⟨s, hrun, hrepresents⟩ := ih ⟨[c] ++ rest, by simp⟩
    obtain ⟨s', hstep, hrepresents'⟩ :=
      hrepresents.createMrMNode (hregular done c rest s (by simp) hrun)
    refine ⟨s', ?_, hrepresents'⟩
    rw [run] at hrun ⊢
    rw [List.foldlM_append, hrun]
    exact (bind_pure _).trans hstep

/-- A call of `Write` for LBAs at the first page of a block. -/
def exampleCall (lba length : Int) : Call := ⟨⟨lba, length, 0, 7, 0, 0⟩, false, 0, false⟩

theorem accepted_exampleCall (lba : Int) {length : Int} (hpos : 1 ≤ length) (hle : length ≤ 8) :
    (exampleCall lba length).Accepted ⟨4, 2⟩ where
  positive := hpos
  checked := rfl
  span := by
    change 0 + length.tdiv 4 ≤ 2
    rw [Int.tdiv_eq_ediv_of_nonneg (by omega)]
    omega
  pageAddr := by simp [exampleCall]
  subPageOff := by simp [exampleCall]

/-- Nothing is buffered and nothing was written. -/
def exampleRegion : VirtualRegion :=
  init 0 7 1 (fun _ => 8) (fun _ => 0) (fun _ => 0) 4096 fun _ => 0

/-- A call behind the first interval of the tree does not take all of its nodes. -/
theorem regular_behind (hs : s.usedPageBuffer = 0) {lba length : Int} (hpos : 1 ≤ length)
    (hle : length ≤ 8) {p : Pointer} (hp : p ∈ inorder s.mrmTreeRoot)
    (hfirst : (s.memory p).lba < lba) : Regular ⟨4, 2⟩ s (exampleCall lba length) where
  accepted := accepted_exampleCall lba hpos hle
  hasRoom := .inl hs
  safe := by
    rintro ⟨_, l, r, -, hbegin, -⟩
    have hle := hbegin _ (mem_extents.mpr ⟨p, hp, rfl⟩)
    exact absurd hfirst (not_lt.mpr hle)

/-- Two intervals are written, the first one is split, and the other is trimmed at its end. -/
def exampleCalls : List Call :=
  [exampleCall 0 4, exampleCall 10 6, exampleCall 2 1, exampleCall 12 8]

theorem regular_exampleCalls (done : List Call) (c : Call) (rest : List Call) (s : VirtualRegion)
    (hsplit : exampleCalls = done ++ c :: rest) (hrun : run ⟨4, 2⟩ exampleRegion done = .ok s) :
    Regular ⟨4, 2⟩ s c := by
  rw [exampleCalls] at hsplit
  rcases done with _ | ⟨a₁, _ | ⟨a₂, _ | ⟨a₃, _ | ⟨a₄, done⟩⟩⟩⟩
  all_goals simp only [List.cons_append, List.nil_append, List.cons.injEq] at hsplit
  · obtain ⟨rfl, -⟩ := hsplit
    obtain rfl := Except.ok.inj hrun
    refine ⟨accepted_exampleCall 0 (by omega) (by omega), .inl rfl, ?_⟩
    rintro ⟨p, l, r, htree, -⟩
    exact nomatch htree
  · obtain ⟨rfl, rfl, -⟩ := hsplit
    obtain rfl := Except.ok.inj hrun
    exact regular_behind rfl (by omega) (by omega) (p := 1) (by decide) (by decide)
  · obtain ⟨rfl, rfl, rfl, -⟩ := hsplit
    obtain rfl := Except.ok.inj hrun
    exact regular_behind rfl (by omega) (by omega) (p := 1) (by decide) (by decide)
  · obtain ⟨rfl, rfl, rfl, rfl, -⟩ := hsplit
    obtain rfl := Except.ok.inj hrun
    exact regular_behind rfl (by omega) (by omega) (p := 1) (by decide +kernel) (by decide +kernel)
  · simp at hsplit

theorem run_represents_exampleCalls :
    (∀ done c rest s, exampleCalls = done ++ c :: rest →
      run ⟨4, 2⟩ exampleRegion done = .ok s → Regular ⟨4, 2⟩ s c) ∧
    (∀ done, done <+: exampleCalls →
      ∃ s, run ⟨4, 2⟩ exampleRegion done = .ok s ∧ s.Represents ⟨4, 2⟩ done) ∧
    ∃ s, run ⟨4, 2⟩ exampleRegion exampleCalls = .ok s ∧
      (s.extents (inorder s.mrmTreeRoot)).map (fun e => (e.lba, e.length)) =
        [(0, 2), (2, 1), (3, 1), (10, 2), (12, 8)] :=
  ⟨regular_exampleCalls, run_represents ⟨4, 2⟩ 0 7 1 4096 (fun _ => 8) (fun _ => 0) (fun _ => 0)
    (fun _ => 0) exampleCalls regular_exampleCalls, _, rfl, by decide +kernel⟩

/-- A shorter write of the only interval deletes its node, and goes on from a root that is NULL. -/
theorem run_shorter_rewrite : ¬ ∀ calls : List Call, (∀ c ∈ calls, c.Accepted ⟨4, 2⟩) →
    ∃ s, run ⟨4, 2⟩ exampleRegion calls = .ok s ∧ s.Represents ⟨4, 2⟩ calls := by
  intro h
  obtain ⟨s, hrun, -⟩ := h [exampleCall 0 2, exampleCall 0 1] (by
    intro c hc
    rcases List.mem_pair.mp hc with rfl | rfl
    · exact accepted_exampleCall 0 (by omega) (by omega)
    · exact accepted_exampleCall 0 le_rfl (by omega))
  have hstop : run ⟨4, 2⟩ exampleRegion [exampleCall 0 2, exampleCall 0 1] =
      .error .nullNode := rfl
  rw [hstop] at hrun
  exact nomatch hrun

end VirtualRegion

end WiscKey.Beyond
