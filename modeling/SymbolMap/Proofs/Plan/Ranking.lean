import Mathlib.Algebra.GroupWithZero.Nat
import Mathlib.Data.List.Dedup
import Mathlib.Data.Nat.Find
import Mathlib.Data.Prod.Lex
import Mathlib.Order.Bounds.Basic
import SymbolMap.Proofs.DirTree.Growth

/-! Which directories of a map may be truncated, which files may be left
out, and in what order, said about the planned files alone. Costlier ones
come first and equals go by a key, so a ranking is determined by what it
ranks. -/
namespace SymbolMap.Plan

open SymbolMap.Path

section Costlier

variable {α β : Type} [LinearOrder β]

/-- The order of pruning: by falling cost, and by rising key among equals. -/
def Costlier (cost : α → Nat) (key : α → β) (a b : α) : Prop :=
  cost b < cost a ∨ cost a = cost b ∧ key a < key b

instance (cost : α → Nat) (key : α → β) : DecidableRel (Costlier cost key) :=
  fun _ _ => inferInstanceAs (Decidable (_ ∨ _))

variable {cost : α → Nat} {key : α → β}

theorem Costlier.asymm {a b : α} (h : Costlier cost key a b) : ¬Costlier cost key b a := by
  rintro (hLess | ⟨hCost, hKey⟩)
  · rcases h with h | h <;> omega
  · rcases h with h | ⟨_, h⟩
    · omega
    · exact lt_asymm h hKey

theorem Costlier.irrefl (a : α) : ¬Costlier cost key a a := fun h => h.asymm h

/-- Of two items with different keys one comes first. -/
theorem costlier_total {a b : α} (hKey : key a ≠ key b) :
    Costlier cost key a b ∨ Costlier cost key b a := by
  rcases lt_trichotomy (cost a) (cost b) with h | h | h
  · exact Or.inr (Or.inl h)
  · rcases lt_or_gt_of_ne hKey with hLess | hLess
    · exact Or.inl (Or.inr ⟨h, hLess⟩)
    · exact Or.inr (Or.inr ⟨h.symm, hLess⟩)
  · exact Or.inl (Or.inl h)

/-- The negated order is transitive: it is the weak order of cost and key. -/
theorem not_costlier_trans {a b c : α} (hFirst : ¬Costlier cost key b a)
    (hSecond : ¬Costlier cost key c b) : ¬Costlier cost key c a := by
  simp only [Costlier, not_or, not_and, not_lt] at hFirst hSecond ⊢
  refine ⟨hSecond.1.trans hFirst.1, fun hCost => ?_⟩
  have hSame : cost a = cost b := by omega
  exact (hFirst.2 hSame.symm).trans (hSecond.2 (by omega))

/-- Items in the order of pruning. -/
def rank (cost : α → Nat) (key : α → β) (items : List α) : List α :=
  items.mergeSort fun a b => !decide (Costlier cost key b a)

theorem rank_perm (cost : α → Nat) (key : α → β) (items : List α) :
    (rank cost key items).Perm items :=
  List.mergeSort_perm _ _

/-- A ranking of items with different keys is strictly in order. -/
theorem pairwise_rank {items : List α} (hKeys : (items.map key).Nodup) :
    (rank cost key items).Pairwise (Costlier cost key) := by
  have hSorted : (rank cost key items).Pairwise fun a b => !decide (Costlier cost key b a) := by
    apply List.pairwise_mergeSort
    · intro a b c hFirst hSecond
      simp only [Bool.not_eq_true', decide_eq_false_iff_not] at hFirst hSecond ⊢
      exact not_costlier_trans hFirst hSecond
    · intro a b
      by_cases h : Costlier cost key b a
      · simp [h.asymm]
      · simp [h]
  have hNodup : (rank cost key items).Pairwise fun a b => key a ≠ key b := by
    rw [← List.pairwise_map]
    exact ((rank_perm cost key items).map key).nodup_iff.mpr hKeys
  refine (hSorted.and hNodup).imp ?_
  rintro a b ⟨hNot, hKey⟩
  simp only [Bool.not_eq_true', decide_eq_false_iff_not] at hNot
  exact (costlier_total hKey).resolve_right hNot

/-- A strict ranking is determined by what it ranks. -/
theorem eq_of_perm_of_costlier {first second : List α} (hPerm : first.Perm second)
    (hFirst : first.Pairwise (Costlier cost key)) (hSecond : second.Pairwise (Costlier cost key)) :
    first = second :=
  hPerm.eq_of_pairwise (fun _ _ _ _ h h' => absurd h' h.asymm) hFirst hSecond

end Costlier

/-- Sorting keeps the order of items that are equal to it. -/
theorem pairwise_mergeSort_ties {α : Type} {le : α → α → Bool} {items : List α}
    {r : α → α → Prop} (hTrans : ∀ a b c, le a b → le b c → le a c)
    (hTotal : ∀ a b, le a b || le b a) (hTies : items.Pairwise fun a b => le b a → r a b) :
    (items.mergeSort le).Pairwise fun a b => le a b ∧ (le b a → r a b) := by
  have hSorted := List.pairwise_mergeSort (List.zipIdxLE_trans hTrans)
    (List.zipIdxLE_total hTotal) items.zipIdx
  have hNodup : ((items.zipIdx.mergeSort (List.zipIdxLE le)).map Prod.snd).Nodup := by
    rw [((List.mergeSort_perm _ _).map Prod.snd).nodup_iff, List.zipIdx_map_snd]
    exact List.nodup_range'
  rw [← List.mergeSort_zipIdx, List.pairwise_map]
  refine ((hSorted.and (List.pairwise_map.mp hNodup)).imp_of_mem ?_)
  rintro ⟨a, i⟩ ⟨b, j⟩ hFirst hSecond ⟨hLess, hNe⟩
  rw [List.mem_mergeSort, List.mk_mem_zipIdx_iff_getElem?] at hFirst hSecond
  simp only [List.zipIdxLE, Bool.if_false_right, Bool.if_true_right, Bool.and_eq_true,
    Bool.or_eq_true, Bool.not_eq_true', decide_eq_true_eq] at hLess
  refine ⟨hLess.1, fun hBack => ?_⟩
  have hIndex : i < j := by
    rcases hLess.2 with hLeast | hStrict
    · simp [hBack] at hLeast
    · exact lt_of_le_of_ne hStrict hNe
  obtain ⟨hi, rfl⟩ := List.getElem?_eq_some_iff.mp hFirst
  obtain ⟨hj, rfl⟩ := List.getElem?_eq_some_iff.mp hSecond
  exact List.pairwise_iff_getElem.mp hTies i j hi hj hIndex hBack

section TakeUntil

variable {α : Type}

/-- The items taken one after the other, besides those taken before, until
enough are taken or none is left. -/
def takeUntil (enough : List α → Bool) (taken : List α) : List α → List α
  | [] => []
  | item :: items =>
    if enough taken then [] else item :: takeUntil enough (taken ++ [item]) items

variable {enough : List α → Bool}

theorem takeUntil_of_enough {taken : List α} (hEnough : enough taken = true) (items : List α) :
    takeUntil enough taken items = [] := by
  cases items <;> simp [takeUntil, hEnough]

theorem takeUntil_isPrefix (enough : List α → Bool) (taken items : List α) :
    takeUntil enough taken items <+: items := by
  induction items generalizing taken with
  | nil => exact List.prefix_rfl
  | cons item items ih =>
      rw [takeUntil]
      split
      · exact List.nil_prefix
      · exact List.cons_prefix_cons.mpr ⟨rfl, ih _⟩

/-- Taking stops at the shortest prefix that is enough. -/
theorem takeUntil_eq_take {items : List α} {count : Nat} (taken : List α)
    (hEnough : enough (taken ++ items.take count) = true)
    (hLeast : ∀ fewer < count, enough (taken ++ items.take fewer) = false) :
    takeUntil enough taken items = items.take count := by
  induction items generalizing taken count with
  | nil => simp [takeUntil]
  | cons item items ih =>
      cases count with
      | zero => exact takeUntil_of_enough (by simpa using hEnough) _
      | succ count =>
          have hStart : enough taken = false := by simpa using hLeast 0 (Nat.succ_pos _)
          have hRest := @ih count (taken ++ [item]) (by simpa using hEnough) (by
            intro fewer hFewer
            simpa using hLeast (fewer + 1) (Nat.succ_lt_succ hFewer))
          rw [takeUntil, hStart, if_neg Bool.false_ne_true, hRest, List.take_succ_cons]

/-- When no prefix is enough, everything is taken. -/
theorem takeUntil_eq_all {items : List α} (taken : List α)
    (hNone : ∀ count ≤ items.length, enough (taken ++ items.take count) = false) :
    takeUntil enough taken items = items := by
  induction items generalizing taken with
  | nil => rfl
  | cons item items ih =>
      have hStart : enough taken = false := by simpa using hNone 0 (Nat.zero_le _)
      have hRest := ih (taken ++ [item]) (by
        intro count hCount
        simpa using hNone (count + 1) (Nat.succ_le_succ hCount))
      rw [takeUntil, hStart, if_neg Bool.false_ne_true, hRest]

/-- A list is the shortest prefix of some items that is enough, or all of
them when no prefix is. -/
def ShortestPrefix (enough : List α → Prop) (items taken : List α) : Prop :=
  (∃ count, IsLeast {n | n ≤ items.length ∧ enough (items.take n)} count ∧
    taken = items.take count) ∨
  (∀ n ≤ items.length, ¬enough (items.take n)) ∧ taken = items

theorem shortestPrefix_takeUntil (enough : List α → Bool) (items : List α) :
    ShortestPrefix (enough · = true) items (takeUntil enough [] items) := by
  by_cases hSome : ∃ n, n ≤ items.length ∧ enough (items.take n) = true
  · have hFound := Nat.find_spec hSome
    refine Or.inl ⟨Nat.find hSome, ⟨hFound, fun n hn => Nat.find_min' hSome hn⟩, ?_⟩
    refine takeUntil_eq_take [] hFound.2 fun fewer hFewer => ?_
    have hNot := Nat.find_min hSome hFewer
    simpa [(hFewer.le.trans hFound.1)] using hNot
  · push Not at hSome
    refine Or.inr ⟨hSome, takeUntil_eq_all [] fun n hn => ?_⟩
    simpa using hSome n hn

/-- What is taken is enough or is everything. -/
theorem ShortestPrefix.enough_or_eq {enough : List α → Prop} {items taken : List α}
    (h : ShortestPrefix enough items taken) : enough taken ∨ taken = items := by
  rcases h with ⟨count, hLeast, rfl⟩ | ⟨_, rfl⟩
  · exact Or.inl hLeast.1.2
  · exact Or.inr rfl

section ShortestPrefix

variable {enough : List α → Prop} {items taken : List α}

theorem ShortestPrefix.isPrefix (h : ShortestPrefix enough items taken) : taken <+: items := by
  rcases h with ⟨count, _, rfl⟩ | ⟨_, rfl⟩
  · exact List.take_prefix _ _
  · exact List.prefix_rfl

/-- Of two shortest prefixes, the one that is enough sooner begins the other. -/
theorem ShortestPrefix.isPrefix_of_imp {enough' : List α → Prop} {taken' : List α}
    (h : ShortestPrefix enough items taken) (h' : ShortestPrefix enough' items taken')
    (hSooner : ∀ list, enough list → enough' list) : taken' <+: taken := by
  rcases h with ⟨count, hLeast, rfl⟩ | ⟨_, rfl⟩
  · have hEnough := hSooner _ hLeast.1.2
    rcases h' with ⟨count', hLeast', rfl⟩ | ⟨hNone, _⟩
    · exact List.take_prefix_take_left (hLeast'.2 ⟨hLeast.1.1, hEnough⟩)
    · exact absurd hEnough (hNone count hLeast.1.1)
  · exact h'.isPrefix

end ShortestPrefix

end TakeUntil

/-- Items go with their keys: picking them out key by key loses none. -/
theorem flatMap_filter_perm {α β : Type} [DecidableEq β] (key : α → β) {keys : List β}
    (hKeys : keys.Nodup) {items : List α} (hItems : ∀ item ∈ items, key item ∈ keys) :
    (keys.flatMap fun k => items.filter (key · = k)).Perm items := by
  induction keys generalizing items with
  | nil =>
      cases items with
      | nil => exact List.Perm.refl _
      | cons item items => exact absurd (hItems item List.mem_cons_self) (by simp)
  | cons k keys ih =>
      obtain ⟨hNew, hKeys⟩ := List.nodup_cons.mp hKeys
      have hOthers : (keys.flatMap fun k' => items.filter (key · = k')) =
          keys.flatMap fun k' => (items.filter (fun item => !decide (key item = k))).filter
            (key · = k') := by
        apply List.flatMap_congr
        intro k' hk'
        rw [List.filter_filter]
        apply List.filter_congr
        intro item _
        by_cases hItem : key item = k'
        · have hNe : k' ≠ k := fun h => hNew (h ▸ hk')
          simp [hItem, hNe]
        · simp [hItem]
      rw [List.flatMap_cons, hOthers]
      have hLeft : ∀ item ∈ items.filter (fun item => !decide (key item = k)), key item ∈ keys := by
        intro item hItem
        obtain ⟨hMem, hKey⟩ := List.mem_filter.mp hItem
        exact (List.mem_cons.mp (hItems item hMem)).resolve_left (by simpa using hKey)
      exact (List.Perm.append_left _ (ih hKeys hLeft)).trans (List.filter_append_perm _ _)

section Leaves

variable (files : List (Record × Nat))

/-- A directory below the root that holds a file and has none deeper in it. -/
def IsLeaf (names : List String) : Prop :=
  names ≠ [] ∧ (∃ file ∈ files, folder file = names) ∧
    ∀ file ∈ files, names <+: folder file → folder file = names

instance (names : List String) : Decidable (IsLeaf files names) :=
  inferInstanceAs (Decidable (_ ∧ _ ∧ _))

theorem IsLeaf.isStep {files : List (Record × Nat)} {names : List String}
    (hLeaf : IsLeaf files names) : ∀ name ∈ names, IsStep name := by
  obtain ⟨_, ⟨file, _, hFolder⟩, _⟩ := hLeaf
  rw [← hFolder]
  exact isStep_of_prefix_folder List.prefix_rfl

/-- The lines of the files directly in a directory, counted in a word. -/
def folderCost (names : List String) : Nat :=
  wrap ((files.filter (folder · = names)).map (·.1.cost)).sum

/-- Leaf directories in the order of truncation: by falling cost, and in the
order of the walk among equals. -/
def leaves : List (List String) :=
  rank (folderCost files) id ((files.map folder).dedup.filter (IsLeaf files ·))

/-- Files outside leaf directories in the order of leaving them out: by
falling cost, then by path, then by their position. -/
def outside : List (Record × Nat) :=
  rank (·.1.cost) (fun file => toLex (file.1.path, file.2))
    (files.filter fun file => !decide (IsLeaf files (folder file)))

theorem mem_leaves_iff (names : List String) : names ∈ leaves files ↔ IsLeaf files names := by
  rw [leaves, (rank_perm _ _ _).mem_iff, List.mem_filter, List.mem_dedup, List.mem_map]
  simp only [decide_eq_true_eq, and_iff_right_iff_imp]
  exact fun hLeaf => hLeaf.2.1

theorem pairwise_leaves : (leaves files).Pairwise (Costlier (folderCost files) id) := by
  apply pairwise_rank
  rw [List.map_id]
  exact (List.nodup_dedup _).filter _

theorem nodup_leaves : (leaves files).Nodup := by
  refine (pairwise_leaves files).imp ?_
  rintro a b hLess rfl
  exact Costlier.irrefl a hLess

theorem outside_perm :
    (outside files).Perm (files.filter fun file => !decide (IsLeaf files (folder file))) :=
  rank_perm _ _ _

theorem mem_outside_iff (file : Record × Nat) :
    file ∈ outside files ↔ file ∈ files ∧ ¬IsLeaf files (folder file) := by
  rw [(outside_perm files).mem_iff, List.mem_filter]
  simp

theorem pairwise_outside (hNumbered : (files.map Prod.snd).Nodup) :
    (outside files).Pairwise
      (Costlier (·.1.cost) fun file => toLex (file.1.path, file.2)) := by
  apply pairwise_rank
  have hNodup := hNumbered.sublist ((List.filter_sublist
    (p := fun file => !decide (IsLeaf files (folder file)))).map Prod.snd)
  refine List.Nodup.of_map (fun key => (ofLex key).2) ?_
  rw [List.map_map]
  exact hNodup

/-- Directories and files are looked up by their own equality. -/
scoped instance namesLawfulBEq : LawfulBEq (List String) := inferInstance

scoped instance fileLawfulBEq : LawfulBEq (Record × Nat) := inferInstance

/-- The lines that a file takes when `cut` are the truncated directories and
`left` the files left out. -/
def charge (cut : List (List String)) (left : List (Record × Nat)) (file : Record × Nat) : Nat :=
  if folder file ∈ cut then placeholderLines else if file ∈ left then 0 else file.1.cost

/-- The lines of all files. -/
def chargeAll (cut : List (List String)) (left : List (Record × Nat)) : Nat :=
  (files.map (charge cut left)).sum

end Leaves

end SymbolMap.Plan
