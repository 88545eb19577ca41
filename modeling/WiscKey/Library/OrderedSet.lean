import Mathlib.Data.List.Perm.Basic
import Mathlib.Data.List.Nodup
import Mathlib.Data.List.TakeWhile
import Mathlib.Order.Compare

/-!
# Ordered sets

A set over a three-way comparison, held as the list of its elements in increasing order.
Elements that compare equal are the same to the set, and the one that came first stays.
-/

namespace WiscKey

variable {α : Type}

/-- Every element compares less than those behind it. -/
def Increasing (cmp : α → α → Ordering) (l : List α) : Prop :=
  l.Pairwise fun a b => cmp a b = .lt

/-- Insert into a list in increasing order, unless an equal element is there. -/
def insertOrdered (cmp : α → α → Ordering) (a : α) : List α → List α
  | [] => [a]
  | b :: rest =>
    match cmp a b with
    | .lt => a :: b :: rest
    | .eq => b :: rest
    | .gt => b :: insertOrdered cmp a rest

/-- The merge of elements into a list: each goes in front of the first element above it. -/
def mergeOrdered (cmp : α → α → Ordering) : List α → List α → List α
  | base, [] => base
  | base, a :: added =>
    base.takeWhile (fun b => cmp a b != .lt) ++
      a :: mergeOrdered cmp (base.dropWhile fun b => cmp a b != .lt) added

section ThreeWay

variable {cmp : α → α → Ordering} {a b c : α}

theorem lt_of_not_gt_of_ne (h : cmp a b ≠ .gt) (h' : cmp a b ≠ .eq) : cmp a b = .lt := by
  cases hcmp : cmp a b with
  | lt => rfl
  | eq => exact absurd hcmp h'
  | gt => exact absurd hcmp h

variable [Std.TransCmp cmp]

theorem not_gt_trans (h : cmp a b ≠ .gt) (h' : cmp b c ≠ .gt) : cmp a c ≠ .gt :=
  Ordering.isLE_iff_ne_gt.mp
    (Std.TransCmp.isLE_trans (Ordering.isLE_iff_ne_gt.mpr h) (Ordering.isLE_iff_ne_gt.mpr h'))

theorem lt_of_not_gt_of_lt (h : cmp a b ≠ .gt) (h' : cmp b c = .lt) : cmp a c = .lt :=
  Std.TransCmp.lt_of_isLE_of_lt (Ordering.isLE_iff_ne_gt.mpr h) h'

theorem lt_of_lt_of_not_gt (h : cmp a b = .lt) (h' : cmp b c ≠ .gt) : cmp a c = .lt :=
  Std.TransCmp.lt_of_lt_of_isLE h (Ordering.isLE_iff_ne_gt.mpr h')

theorem not_gt_iff_not_lt : cmp a b ≠ .gt ↔ cmp b a ≠ .lt := by
  rw [ne_eq, ne_eq, Std.OrientedCmp.gt_iff_lt]

theorem not_gt_self : cmp a a ≠ .gt := by
  have hself : cmp a a = .eq := Std.ReflCmp.compare_self
  rw [hself]
  exact Ordering.noConfusion

theorem eq_of_not_gt (h : cmp a b ≠ .gt) (h' : cmp b a ≠ .gt) : cmp a b = .eq :=
  Std.OrientedCmp.isLE_antisymm (Ordering.isLE_iff_ne_gt.mpr h) (Ordering.isLE_iff_ne_gt.mpr h')

end ThreeWay

section Membership

variable {cmp : α → α → Ordering} {a b : α} {l base added : List α}

theorem mem_of_mem_insertOrdered (h : b ∈ insertOrdered cmp a l) : b = a ∨ b ∈ l := by
  induction l with
  | nil => exact .inl (by simpa [insertOrdered] using h)
  | cons c rest ih =>
    rw [insertOrdered] at h
    split at h
    · simpa using h
    · exact .inr h
    · rcases List.mem_cons.mp h with rfl | hrest
      · exact .inr (List.mem_cons_self ..)
      · exact (ih hrest).imp_right (List.mem_cons_of_mem _)

theorem mem_insertOrdered_of_mem (h : b ∈ l) : b ∈ insertOrdered cmp a l := by
  induction l with
  | nil => cases h
  | cons c rest ih =>
    rw [insertOrdered]
    split
    · exact List.mem_cons_of_mem _ h
    · exact h
    · rcases List.mem_cons.mp h with rfl | hrest
      · exact List.mem_cons_self ..
      · exact List.mem_cons_of_mem _ (ih hrest)

/-- The element is in, or one that compares equal to it was. -/
theorem mem_insertOrdered_self (h : ∀ b ∈ l, cmp a b = .eq → a = b) :
    a ∈ insertOrdered cmp a l := by
  induction l with
  | nil => exact List.mem_singleton_self a
  | cons c rest ih =>
    rw [insertOrdered]
    split
    · exact List.mem_cons_self ..
    · rename_i heq
      exact h c (List.mem_cons_self ..) heq ▸ List.mem_cons_self ..
    · exact List.mem_cons_of_mem _ (ih fun b hb => h b (List.mem_cons_of_mem _ hb))

theorem mem_insertOrdered_iff (h : ∀ b ∈ l, cmp a b = .eq → a = b) :
    b ∈ insertOrdered cmp a l ↔ b = a ∨ b ∈ l := by
  constructor
  · exact mem_of_mem_insertOrdered
  · rintro (rfl | hb)
    · exact mem_insertOrdered_self h
    · exact mem_insertOrdered_of_mem hb

theorem mem_mergeOrdered : b ∈ mergeOrdered cmp base added ↔ b ∈ base ∨ b ∈ added := by
  induction added generalizing base with
  | nil => simp [mergeOrdered]
  | cons c added ih =>
    have hbase : b ∈ base ↔ b ∈ base.takeWhile (fun b => cmp c b != .lt) ∨
        b ∈ base.dropWhile (fun b => cmp c b != .lt) := by
      rw [← List.mem_append, List.takeWhile_append_dropWhile]
    rw [mergeOrdered, List.mem_append, List.mem_cons, List.mem_cons, ih, hbase]
    tauto

end Membership

section Order

variable {cmp : α → α → Ordering} [Std.TransCmp cmp] {a : α} {l base added : List α}

theorem increasing_insertOrdered (h : Increasing cmp l) : Increasing cmp (insertOrdered cmp a l) := by
  induction l with
  | nil => exact List.pairwise_singleton _ _
  | cons c rest ih =>
    obtain ⟨hhead, hrest⟩ := List.pairwise_cons.mp h
    rw [insertOrdered]
    split
    · rename_i hlt
      refine List.pairwise_cons.mpr ⟨fun b hb => ?_, h⟩
      rcases List.mem_cons.mp hb with rfl | hb
      · exact hlt
      · exact Std.TransCmp.lt_trans hlt (hhead b hb)
    · exact h
    · rename_i hgt
      refine List.pairwise_cons.mpr ⟨fun b hb => ?_, ih hrest⟩
      rcases mem_of_mem_insertOrdered hb with rfl | hb
      · exact Std.OrientedCmp.lt_of_gt hgt
      · exact hhead b hb

/-- The elements are those that were there, and the new one unless one that compares equal was. -/
theorem Increasing.mem_insertOrdered (h : Increasing cmp l) {b : α} :
    b ∈ insertOrdered cmp a l ↔ b ∈ l ∨ b = a ∧ ∀ c ∈ l, cmp a c ≠ .eq := by
  by_cases hequal : ∃ c ∈ l, cmp a c = .eq
  · have hsame : insertOrdered cmp a l = l := by
      induction l with
      | nil =>
        obtain ⟨c, hc, -⟩ := hequal
        cases hc
      | cons d rest ih =>
        obtain ⟨hhead, hrest⟩ := List.pairwise_cons.mp h
        obtain ⟨c, hc, hac⟩ := hequal
        rw [insertOrdered]
        rcases List.mem_cons.mp hc with rfl | hc
        · rw [hac]
        · have hgt : cmp a d = .gt := by
            rw [Std.TransCmp.congr_left hac]
            exact Std.OrientedCmp.gt_of_lt (hhead c hc)
          rw [hgt]
          exact congrArg (d :: ·) (ih hrest ⟨c, hc, hac⟩)
    obtain ⟨c, hc, hac⟩ := hequal
    rw [hsame]
    exact ⟨.inl, fun hb => hb.resolve_right fun hnew => hnew.2 c hc hac⟩
  · have hne : ∀ c ∈ l, cmp a c ≠ .eq := fun c hc heq => hequal ⟨c, hc, heq⟩
    rw [mem_insertOrdered_iff fun c hc heq => absurd heq (hne c hc), or_comm]
    exact or_congr_right ⟨fun hb => ⟨hb, hne⟩, And.left⟩

/-- What is above every element goes to the end. -/
theorem insertOrdered_of_above (h : ∀ b ∈ l, cmp b a = .lt) :
    insertOrdered cmp a l = l ++ [a] := by
  induction l with
  | nil => rfl
  | cons c rest ih =>
    have hgt : cmp a c = .gt := Std.OrientedCmp.gt_of_lt (h c (List.mem_cons_self ..))
    rw [insertOrdered, hgt, List.cons_append]
    exact congrArg (c :: ·) (ih fun b hb => h b (List.mem_cons_of_mem _ hb))

theorem increasing_mergeOrdered (hbase : Increasing cmp base) (hadded : Increasing cmp added)
    (hne : ∀ a ∈ added, ∀ b ∈ base, cmp a b ≠ .eq) :
    Increasing cmp (mergeOrdered cmp base added) := by
  induction added generalizing base with
  | nil => exact hbase
  | cons c added ih =>
    obtain ⟨hc, hadded⟩ := List.pairwise_cons.mp hadded
    have hsplit := List.takeWhile_append_dropWhile (p := fun b => cmp c b != .lt) (l := base)
    rw [Increasing, ← hsplit, List.pairwise_append] at hbase
    obtain ⟨hfront, hback, hcross⟩ := hbase
    have hfrontLt : ∀ b ∈ base.takeWhile (fun b => cmp c b != .lt), cmp b c = .lt := by
      intro b hb
      have hnlt : cmp c b ≠ .lt := by simpa using List.mem_takeWhile_imp hb
      have hneq := hne c (List.mem_cons_self ..) b ((List.takeWhile_sublist _).subset hb)
      cases hcmp : cmp c b with
      | lt => exact absurd hcmp hnlt
      | eq => exact absurd hcmp hneq
      | gt => exact Std.OrientedCmp.lt_of_gt hcmp
    have hbackLt : ∀ b ∈ base.dropWhile (fun b => cmp c b != .lt), cmp c b = .lt := by
      intro b hb
      cases hdrop : base.dropWhile (fun b => cmp c b != .lt) with
      | nil => rw [hdrop] at hb; cases hb
      | cons d rest =>
        have hd : cmp c d = .lt := by
          have hhead := List.head?_dropWhile_not (fun b => cmp c b != .lt) base
          rw [hdrop] at hhead
          simpa using hhead
        rw [hdrop] at hb hback
        rcases List.mem_cons.mp hb with rfl | hb
        · exact hd
        · exact Std.TransCmp.lt_trans hd ((List.pairwise_cons.mp hback).1 b hb)
    rw [mergeOrdered, Increasing, List.pairwise_append]
    refine ⟨hfront, List.pairwise_cons.mpr ⟨fun b hb => ?_, ?_⟩, fun x hx y hy => ?_⟩
    · rcases mem_mergeOrdered.mp hb with hb | hb
      · exact hbackLt b hb
      · exact hc b hb
    · refine ih hback hadded fun a ha b hb => ?_
      exact hne a (List.mem_cons_of_mem _ ha) b ((List.dropWhile_sublist _).subset hb)
    · rcases List.mem_cons.mp hy with rfl | hy
      · exact hfrontLt x hx
      · rcases mem_mergeOrdered.mp hy with hy | hy
        · exact hcross x hx y hy
        · exact Std.TransCmp.lt_trans (hfrontLt x hx) (hc y hy)

/-- Increasing lists with the same elements are the same. -/
theorem Increasing.eq_of_mem_iff {l₁ l₂ : List α} (h₁ : Increasing cmp l₁)
    (h₂ : Increasing cmp l₂) (h : ∀ a, a ∈ l₁ ↔ a ∈ l₂) : l₁ = l₂ := by
  have hirrefl : ∀ {a b : α}, cmp a b = .lt → a ≠ b := by
    intro a b hlt
    have hne : cmp a b ≠ .eq := by simp [hlt]
    exact Std.ReflCmp.ne_of_cmp_ne_eq hne
  have hperm : l₁.Perm l₂ :=
    (List.perm_ext_iff_of_nodup (h₁.imp hirrefl) (h₂.imp hirrefl)).mpr h
  refine hperm.eq_of_pairwise (fun a b _ _ hab hba => ?_) h₁ h₂
  exact absurd rfl (hirrefl (Std.TransCmp.lt_trans hab hba))

end Order

/-- The elements of a set in increasing order. -/
structure OrderedSet (cmp : α → α → Ordering) where
  toList : List α
  increasing : Increasing cmp toList

namespace OrderedSet

variable {cmp : α → α → Ordering}

@[ext] theorem ext {s t : OrderedSet cmp} (h : s.toList = t.toList) : s = t := by
  cases s
  cases t
  cases h
  rfl

instance [DecidableEq α] : DecidableEq (OrderedSet cmp) := fun s t =>
  decidable_of_iff (s.toList = t.toList) ⟨ext, congrArg toList⟩

/-- The empty set. -/
def empty (cmp : α → α → Ordering) : OrderedSet cmp := ⟨[], List.Pairwise.nil⟩

/-- `std::set::insert`. -/
def insert [Std.TransCmp cmp] (s : OrderedSet cmp) (a : α) : OrderedSet cmp :=
  ⟨insertOrdered cmp a s.toList, increasing_insertOrdered s.increasing⟩

/-- Inserting what is in order, and above what is there, appends it. -/
theorem toList_foldl_insert [Std.TransCmp cmp] (s : OrderedSet cmp) (l : List α)
    (h : Increasing cmp (s.toList ++ l)) : (l.foldl insert s).toList = s.toList ++ l := by
  induction l generalizing s with
  | nil => rw [List.foldl_nil, List.append_nil]
  | cons a l ih =>
    have habove : ∀ b ∈ s.toList, cmp b a = .lt := fun b hb =>
      (List.pairwise_append.mp h).2.2 b hb a (List.mem_cons_self ..)
    have hinsert : (s.insert a).toList = s.toList ++ [a] := insertOrdered_of_above habove
    rw [List.foldl_cons, ih (s.insert a) (by rw [hinsert]; simpa using h), hinsert]
    simp

end OrderedSet

end WiscKey
