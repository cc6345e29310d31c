import SymbolMap.Proofs.Plan.Pruning

/-! The first phase of pruning. Truncation goes through the leaf directories
in their ranking and stops at the first tree within the limit. Truncating one
leaf changes neither the cost nor the rank of another, and makes no new
one. -/
namespace SymbolMap.Plan

open SymbolMap.Path

variable {files : List (Record × Nat)} {cut : List (List String)} {left : List (Record × Nat)}

section Total

theorem wrap_sum_map_wrap {α : Type} (f : α → Nat) (items : List α) :
    wrap (items.map fun item => wrap (f item)).sum = wrap (items.map f).sum := by
  induction items with
  | nil => rfl
  | cons item items ih =>
      rw [List.map_cons, List.sum_cons, List.map_cons, List.sum_cons, wrap_wrap_add,
        ← wrap_add_wrap, ih, wrap_add_wrap]

theorem DirTree.total_recompute_eq_sum (tree : DirTree) :
    tree.recompute.total = wrap (tree.sites.map fun site => site.visit.dir.ownCost).sum := by
  rw [DirTree.total_recompute, Forest.ownTotal_eq_sum [] [tree.root.id]]
  simp [DirTree.sites]

theorem shownCost_map_placedWithout (left files : List (Record × Nat)) :
    shownCost (files.map (placedWithout left)) =
      wrap (files.map fun file => if file ∈ left then 0 else file.1.cost).sum := by
  induction files with
  | nil => rfl
  | cons file files ih =>
      simp only [List.map_cons, shownCost, List.sum_cons, ih, wrap_add_wrap]
      by_cases hLeft : file ∈ left <;> simp [placedWithout, placed, hLeft]

/-- A directory takes the lines that its files are charged. -/
theorem ownCost_eq_sum_charge (hNumbered : (files.map Prod.snd).Nodup)
    (hCut : ∀ names ∈ cut, IsLeaf files names) (hLeft : left ⊆ files) {origin : Site}
    (hOrigin : origin ∈ (grow files).sites) :
    (mark cut left origin.visit.dir).ownCost =
      wrap ((files.filter (folder · = origin.names)).map (charge cut left)).sum := by
  have hFolder : ∀ file ∈ files.filter (folder · = origin.names), folder file = origin.names :=
    fun file hFile => of_decide_eq_true (List.mem_filter.mp hFile).2
  rw [mark_of_mem_sites hNumbered hCut hLeft hOrigin, Directory.ownCost]
  by_cases hNames : origin.names ∈ cut
  · have hCharge : (files.filter (folder · = origin.names)).map (charge cut left) =
        (files.filter (folder · = origin.names)).map fun _ => placeholderLines :=
      List.map_congr_left fun file hFile => by simp [charge, hFolder file hFile, hNames]
    simp [hCharge, hNames, Directory.placeholderCost]
  · have hCharge : (files.filter (folder · = origin.names)).map (charge cut left) =
        (files.filter (folder · = origin.names)).map fun file =>
          if file ∈ left then 0 else file.1.cost :=
      List.map_congr_left fun file hFile => by simp [charge, hFolder file hFile, hNames]
    simp [hCharge, hNames, shownCost_map_placedWithout]

/-- The directories of a tree share out the files. -/
theorem flatMap_names_perm (cut : List (List String)) (left : List (Record × Nat))
    {items : List (Record × Nat)} (hItems : items ⊆ files) :
    (((pruned files cut left).sites.map Site.names).flatMap fun names =>
      items.filter (folder · = names)).Perm items := by
  refine flatMap_filter_perm folder ?_ ?_
  · exact List.pairwise_map.mpr ((pairwise_sites_pruned files cut left).imp fun h => ne_of_lt h)
  · intro file hFile
    exact List.mem_map.mpr ((exists_site_pruned_iff files cut left _).mpr
      (Or.inr ⟨file, hItems hFile, List.prefix_rfl⟩))

/-- The total of a pruned tree is what its files are charged. -/
theorem total_pruned (hNumbered : (files.map Prod.snd).Nodup)
    (hCut : ∀ names ∈ cut, IsLeaf files names) (hLeft : left ⊆ files) :
    (pruned files cut left).total = wrap (chargeAll files cut left) := by
  rw [pruned, DirTree.total_recompute_eq_sum, DirTree.sites_map mark_keeps, List.map_map]
  have hCosts : (grow files).sites.map
        ((fun site : Site => site.visit.dir.ownCost) ∘ Site.onDir (mark cut left)) =
      (grow files).sites.map fun origin =>
        wrap ((files.filter (folder · = origin.names)).map (charge cut left)).sum :=
    List.map_congr_left fun origin hOrigin =>
      ownCost_eq_sum_charge hNumbered hCut hLeft hOrigin
  have hShare := flatMap_names_perm cut left (List.Subset.refl files)
  rw [names_pruned] at hShare
  rw [hCosts, wrap_sum_map_wrap, chargeAll, ← (hShare.map (charge cut left)).sum_nat]
  simp [List.flatMap, List.map_flatten, List.sum_flatten, Function.comp_def]

end Total

section Truncation

theorem mem_of_costliest {visits : List Visit} {visit : Visit}
    (hVisit : costliest visits = some visit) : visit ∈ visits := by
  induction visits generalizing visit with
  | nil => simp [costliest] at hVisit
  | cons first visits ih =>
      rw [costliest] at hVisit
      split at hVisit
      · simp_all
      · rename_i other hOther
        split at hVisit
        · exact List.mem_cons_of_mem _ (ih (hVisit ▸ hOther))
        · simp_all

/-- The costliest visit is the first with the largest total. -/
theorem costliest_append {before after : List Visit} {visit : Visit}
    (hBefore : ∀ v ∈ before, v.dir.total < visit.dir.total)
    (hAfter : ∀ v ∈ after, v.dir.total ≤ visit.dir.total) :
    costliest (before ++ visit :: after) = some visit := by
  induction before with
  | nil =>
      rw [List.nil_append, costliest]
      split
      · rfl
      · rename_i other hOther
        rw [if_neg (not_lt.mpr (hAfter other (mem_of_costliest hOther)))]
  | cons first before ih =>
      have hRest := ih fun v hv => hBefore v (List.mem_cons_of_mem _ hv)
      rw [List.cons_append, costliest, hRest]
      exact if_pos (hBefore first List.mem_cons_self)

/-- The directories that may be truncated next are the leaves that are not
truncated yet. -/
theorem truncatable_iff (hNumbered : (files.map Prod.snd).Nodup)
    (hCut : ∀ names ∈ cut, IsLeaf files names) (hLeft : left ⊆ files) {site : Site}
    (hSite : site ∈ (pruned files cut left).sites) :
    site.visit.truncatable = true ↔ IsLeaf files site.names ∧ site.names ∉ cut := by
  have hSeen := seen_of_mem_sites hNumbered hCut hLeft hSite
  have hLength : 2 ≤ site.visit.chain.length ↔ site.names ≠ [] := by
    rw [hSeen.chain, ← List.length_pos_iff]
    omega
  simp only [Visit.truncatable, Bool.and_eq_true, Bool.not_eq_true', decide_eq_true_eq, hLength,
    hSeen.leaf, hSeen.truncated, decide_eq_false_iff_not]
  constructor
  · rintro ⟨⟨hNames, hLeaf⟩, hNew⟩
    have hMet := (exists_site_pruned_iff files cut left site.names).mp ⟨site, hSite, rfl⟩
    obtain ⟨file, hFile, hOn⟩ := hMet.resolve_left hNames
    exact ⟨⟨hNames, ⟨file, hFile, hLeaf file hFile hOn⟩, hLeaf⟩, hNew⟩
  · rintro ⟨⟨hNames, _, hLeaf⟩, hNew⟩
    exact ⟨⟨hNames, hLeaf⟩, hNew⟩

/-- A leaf directory that is not truncated keeps the cost of its files. -/
theorem total_of_leaf_pruned (hNumbered : (files.map Prod.snd).Nodup)
    (hCut : ∀ names ∈ cut, IsLeaf files names) {site : Site}
    (hSite : site ∈ (pruned files cut []).sites) (hLeaf : IsLeaf files site.names)
    (hNew : site.names ∉ cut) : site.visit.dir.total = folderCost files site.names := by
  have hSeen := seen_of_mem_sites hNumbered hCut (List.nil_subset _) hSite
  rw [DirTree.total_of_leaf (counted_pruned ..) hSite (hSeen.leaf.mpr hLeaf.2.2),
    Directory.ownCost, hSeen.truncated, hSeen.holds, if_neg (by simp [hNew]),
    shownCost_map_placedWithout]
  simp [folderCost]

theorem largestLeaf_eq (tree : DirTree) :
    largestLeaf tree =
      costliest ((tree.sites.filter fun site => site.visit.truncatable).map Site.visit) := by
  rw [largestLeaf, ← DirTree.map_visit_sites, List.filter_map]
  rfl

theorem isLeaf_of_mem_done {done todo : List (List String)}
    (hSplit : leaves files = done ++ todo) : ∀ names ∈ done, IsLeaf files names := by
  intro names hMem
  rw [← mem_leaves_iff, hSplit]
  exact List.mem_append_left _ hMem

/-- The next directory to truncate is the next one of the ranking. -/
theorem largestLeaf_pruned (hNumbered : (files.map Prod.snd).Nodup)
    {done todo : List (List String)} {next : List String}
    (hSplit : leaves files = done ++ next :: todo) :
    ∃ site ∈ (pruned files done []).sites, site.names = next ∧
      largestLeaf (pruned files done []) = some site.visit := by
  have hCut := isLeaf_of_mem_done hSplit
  have hNext : IsLeaf files next := by
    rw [← mem_leaves_iff, hSplit]
    simp
  have hNodup : (done ++ next :: todo).Nodup := hSplit ▸ nodup_leaves files
  have hNew : next ∉ done := fun h =>
    (List.nodup_append.mp hNodup).2.2 next h next List.mem_cons_self rfl
  obtain ⟨file, hFile, hFolder⟩ := hNext.2.1
  obtain ⟨site, hSite, rfl⟩ := (exists_site_pruned_iff files done [] next).mpr
    (Or.inr ⟨file, hFile, hFolder ▸ List.prefix_rfl⟩)
  refine ⟨site, hSite, rfl, ?_⟩
  have hCandidate :
      site ∈ (pruned files done []).sites.filter fun site => site.visit.truncatable :=
    List.mem_filter.mpr
      ⟨hSite, (truncatable_iff hNumbered hCut (List.nil_subset _) hSite).mpr ⟨hNext, hNew⟩⟩
  obtain ⟨before, after, hSites⟩ := List.append_of_mem hCandidate
  have hOrder := (pairwise_sites_pruned files done []).filter fun site => site.visit.truncatable
  rw [hSites, List.pairwise_append, List.pairwise_cons] at hOrder
  obtain ⟨_, ⟨hAfter, _⟩, hBefore⟩ := hOrder
  -- every other candidate ranks behind the next leaf
  have hRank : ∀ other ∈ before ++ site :: after, other.names ≠ site.names →
      other.visit.dir.total = folderCost files other.names ∧
        Costlier (folderCost files) id site.names other.names := by
    intro other hOther hNe
    rw [← hSites] at hOther
    obtain ⟨hOther, hCan⟩ := List.mem_filter.mp hOther
    obtain ⟨hLeaf, hFresh⟩ := (truncatable_iff hNumbered hCut (List.nil_subset _) hOther).mp hCan
    refine ⟨total_of_leaf_pruned hNumbered hCut hOther hLeaf hFresh, ?_⟩
    have hMem := (mem_leaves_iff files other.names).mpr hLeaf
    rw [hSplit, List.mem_append, List.mem_cons] at hMem
    have hTodo := (hMem.resolve_left hFresh).resolve_left hNe
    have hPairs := pairwise_leaves files
    rw [hSplit, List.pairwise_append, List.pairwise_cons] at hPairs
    exact hPairs.2.1.1 _ hTodo
  have hTotal := total_of_leaf_pruned hNumbered hCut hSite hNext hNew
  rw [largestLeaf_eq, hSites, List.map_append, List.map_cons]
  apply costliest_append
  · intro visit hVisit
    obtain ⟨other, hOther, rfl⟩ := List.mem_map.mp hVisit
    have hLess : other.names < site.names := hBefore other hOther site List.mem_cons_self
    obtain ⟨hCost, hCostlier⟩ := hRank other (List.mem_append_left _ hOther) (ne_of_lt hLess)
    rw [hCost, hTotal]
    exact hCostlier.resolve_right fun h => lt_asymm hLess h.2
  · intro visit hVisit
    obtain ⟨other, hOther, rfl⟩ := List.mem_map.mp hVisit
    have hLess : site.names < other.names := hAfter other hOther
    obtain ⟨hCost, hCostlier⟩ := hRank other
      (List.mem_append_right _ (List.mem_cons_of_mem _ hOther)) (ne_of_gt hLess)
    rw [hCost, hTotal]
    rcases hCostlier with h | h
    · exact h.le
    · exact h.1.symm.le

/-- Once all leaves are truncated there is nothing more to truncate: no
directory becomes a leaf. -/
theorem largestLeaf_pruned_leaves (hNumbered : (files.map Prod.snd).Nodup) :
    largestLeaf (pruned files (leaves files) []) = none := by
  have hNone : (pruned files (leaves files) []).sites.filter
      (fun site => site.visit.truncatable) = [] := by
    rw [List.filter_eq_nil_iff]
    intro site hSite hCan
    have hCut := fun names => (mem_leaves_iff files names).mp
    obtain ⟨hLeaf, hNew⟩ := (truncatable_iff hNumbered hCut (List.nil_subset _) hSite).mp hCan
    exact hNew ((mem_leaves_iff files _).mpr hLeaf)
  rw [largestLeaf_eq, hNone]
  rfl

/-- Whether truncating these directories is enough. -/
def cutSuffices (files : List (Record × Nat)) (limit : Nat) (cut : List (List String)) : Bool :=
  wrap (chargeAll files cut []) ≤ limit

/-- Truncation takes the leaves in the order of their ranking until it is
enough. -/
theorem truncateLeaves_pruned (hNumbered : (files.map Prod.snd).Nodup) (limit : Nat)
    {rounds : Nat} {done todo : List (List String)} (hSplit : leaves files = done ++ todo)
    (hRounds : todo.length ≤ rounds) :
    truncateLeaves limit rounds (pruned files done []) =
      (pruned files (done ++ takeUntil (cutSuffices files limit) done todo) [],
        (takeUntil (cutSuffices files limit) done todo).map ofNames) := by
  induction todo generalizing rounds done with
  | nil =>
      rw [List.append_nil] at hSplit
      cases rounds with
      | zero => simp [truncateLeaves, takeUntil]
      | succ rounds =>
          have hNone := largestLeaf_pruned_leaves hNumbered
          rw [hSplit] at hNone
          simp [truncateLeaves, takeUntil, hNone]
  | cons next todo ih =>
      obtain ⟨rounds, rfl⟩ := Nat.exists_eq_succ_of_ne_zero (Nat.ne_of_gt (Nat.lt_of_lt_of_le
        (Nat.succ_pos todo.length) hRounds))
      have hCut := isLeaf_of_mem_done hSplit
      rw [truncateLeaves, total_pruned hNumbered hCut (List.nil_subset files), takeUntil]
      by_cases hEnough : wrap (chargeAll files done []) ≤ limit
      · simp [cutSuffices, hEnough]
      · have hMore : ¬cutSuffices files limit done = true := by simpa [cutSuffices] using hEnough
        rw [if_neg hEnough, if_neg hMore]
        obtain ⟨site, hSite, rfl, hNext⟩ := largestLeaf_pruned hNumbered hSplit
        have hSplit' : leaves files = (done ++ [site.names]) ++ todo := by simp [hSplit]
        have hLeaf := isLeaf_of_mem_done hSplit' site.names (by simp)
        have hNew : site.names ∉ done := by
          have hNodup : (done ++ site.names :: todo).Nodup := hSplit ▸ nodup_leaves files
          exact fun h => (List.nodup_append.mp hNodup).2.2 _ h _ List.mem_cons_self rfl
        have hPath := (seen_of_mem_sites hNumbered hCut (List.nil_subset _) hSite).path
        have hRest := ih hSplit' (Nat.le_of_succ_le_succ hRounds)
        simp only [hNext, truncate_pruned hNumbered hCut (List.nil_subset _) hSite hNew hLeaf,
          hRest, hPath, List.append_assoc, List.singleton_append, List.map_cons]

end Truncation

end SymbolMap.Plan
