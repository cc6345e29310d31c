import SymbolMap.Proofs.DirTree.Edits
import SymbolMap.Proofs.Path.Order
import SymbolMap.Proofs.Plan.Truncation
import SymbolMap.Proofs.Text.OctetOrder

/-! Which of several equally costly directories is truncated first. Truncation
takes the first on the walk, and the walk goes by names, so of equals the one
whose names come first is taken. Its path is the smallest as text unless
another one overtakes it. -/
namespace SymbolMap.Plan

open SymbolMap.Text SymbolMap.Path

/-- The names that lead to a visited directory, read off its path. -/
def Visit.names (visit : Visit) : List String := components visit.dir.path.toList

/-- A directory that may be truncated, and none of those costs more. -/
structure IsCostliest (tree : DirTree) (visit : Visit) : Prop where
  met : visit ∈ tree.walk
  truncatable : visit.truncatable = true
  most : ∀ other ∈ tree.walk, other.truncatable = true → other.dir.total ≤ visit.dir.total

/-- One directory ranks before another when it costs more, or as much and its
names come first. -/
def RanksBefore (first second : Visit) : Prop :=
  Costlier (fun visit : Visit => visit.dir.total) Visit.names first second

theorem RanksBefore.le {first second : Visit} (h : RanksBefore first second) :
    second.dir.total ≤ first.dir.total :=
  h.elim le_of_lt fun hEqual => hEqual.1.symm.le

namespace LaidOut

variable {tree : DirTree} {first second : Visit}

theorem names_eq (hLaid : LaidOut tree) {site : Site} (hSite : site ∈ tree.sites) :
    site.visit.names = site.names := by
  rw [Visit.names, hLaid.path site hSite, components_ofNames (hLaid.steps site hSite)]

/-- The walk goes by the names. -/
theorem pairwise_walk (hLaid : LaidOut tree) :
    tree.walk.Pairwise fun a b => a.names < b.names := by
  rw [← DirTree.map_visit_sites, List.pairwise_map]
  refine hLaid.ordered.imp_of_mem fun hFirst hSecond hLess => ?_
  rwa [hLaid.names_eq hFirst, hLaid.names_eq hSecond]

theorem path_eq (hLaid : LaidOut tree) (hVisit : first ∈ tree.walk) :
    first.dir.path = ofNames first.names ∧ ∀ name ∈ first.names, IsStep name := by
  rw [← DirTree.map_visit_sites] at hVisit
  obtain ⟨site, hSite, rfl⟩ := List.mem_map.mp hVisit
  rw [hLaid.names_eq hSite]
  exact ⟨hLaid.path site hSite, hLaid.steps site hSite⟩

/-- What comes first by names comes first by octets, unless it is
overtaken. -/
theorem encode_lt_iff (hLaid : LaidOut tree) (hFirst : first ∈ tree.walk)
    (hSecond : second ∈ tree.walk) (hLess : first.names < second.names) :
    encode first.dir.path.toList < encode second.dir.path.toList ↔
      ¬Overtakes second.names first.names := by
  obtain ⟨hFirstPath, hFirstSteps⟩ := hLaid.path_eq hFirst
  obtain ⟨hSecondPath, hSecondSteps⟩ := hLaid.path_eq hSecond
  rw [← lt_iff_encode_lt, ← ofNames_lt_iff_overtakes hSecondSteps hLess, ← hFirstPath,
    ← hSecondPath, not_lt]
  have hNe : first.dir.path ≠ second.dir.path := by
    intro hSame
    rw [hFirstPath, hSecondPath] at hSame
    exact ne_of_lt hLess (ofNames_inj hFirstSteps hSecondSteps hSame)
  exact ⟨le_of_lt, fun h => lt_of_le_of_ne h hNe⟩

end LaidOut

section Choice

variable {visits : List Visit} {visit : Visit}

theorem costliest_eq_none_iff : costliest visits = none ↔ visits = [] := by
  cases visits with
  | nil => simp [costliest]
  | cons first visits =>
      simp only [costliest]
      split
      · simp
      · split <;> simp

theorem ranksBefore_of_costliest (hOrdered : visits.Pairwise fun a b => a.names < b.names)
    (hVisit : costliest visits = some visit) :
    ∀ other ∈ visits, other ≠ visit → RanksBefore visit other := by
  induction visits generalizing visit with
  | nil => simp
  | cons first visits ih =>
      obtain ⟨hFirst, hOrdered⟩ := List.pairwise_cons.mp hOrdered
      intro other hOther hNe
      cases hRest : costliest visits with
      | none =>
          have hNone := costliest_eq_none_iff.mp hRest
          subst hNone
          simp only [costliest, Option.some.injEq] at hVisit
          exact absurd ((List.mem_singleton.mp hOther).trans hVisit) hNe
      | some best =>
          have hBest := ih hOrdered hRest
          simp only [costliest, hRest] at hVisit
          split at hVisit
          · rename_i hLess
            cases hVisit
            rcases List.mem_cons.mp hOther with rfl | hOther
            · exact Or.inl hLess
            · exact hBest other hOther hNe
          · rename_i hMost
            cases hVisit
            have hOther := (List.mem_cons.mp hOther).resolve_left hNe
            have hAtMost : other.dir.total ≤ first.dir.total := by
              refine le_trans ?_ (not_lt.mp hMost)
              by_cases hSame : other = best
              · exact hSame ▸ le_rfl
              · exact (hBest other hOther hSame).le
            exact hAtMost.lt_or_eq.imp_right fun h => ⟨h.symm, hFirst other hOther⟩

/-- Of directories in the order of their names, the first with the largest
total ranks before all others. -/
theorem costliest_eq_some_iff (hOrdered : visits.Pairwise fun a b => a.names < b.names) :
    costliest visits = some visit ↔
      visit ∈ visits ∧ ∀ other ∈ visits, other ≠ visit → RanksBefore visit other := by
  constructor
  · exact fun h => ⟨mem_of_costliest h, ranksBefore_of_costliest hOrdered h⟩
  · rintro ⟨hMem, hRank⟩
    obtain ⟨chosen, hChosen⟩ : ∃ chosen, costliest visits = some chosen := by
      rw [← Option.ne_none_iff_exists', Ne, costliest_eq_none_iff]
      exact List.ne_nil_of_mem hMem
    by_contra hOther
    have hNe : chosen ≠ visit := fun h => hOther (h ▸ hChosen)
    exact (hRank chosen (mem_of_costliest hChosen) hNe).asymm
      (ranksBefore_of_costliest hOrdered hChosen visit hMem hNe.symm)

end Choice

section Leaves

variable {tree : DirTree} {visit : Visit}

theorem largestLeaf_eq_none_iff (tree : DirTree) :
    largestLeaf tree = none ↔ ∀ visit ∈ tree.walk, visit.truncatable = false := by
  rw [largestLeaf, costliest_eq_none_iff, List.filter_eq_nil_iff]
  simp

theorem largestLeaf_eq_some_iff (hLaid : LaidOut tree) :
    largestLeaf tree = some visit ↔
      (visit ∈ tree.walk ∧ visit.truncatable = true) ∧
        ∀ other ∈ tree.walk, other.truncatable = true → other ≠ visit → RanksBefore visit other := by
  rw [largestLeaf, costliest_eq_some_iff (hLaid.pairwise_walk.filter _)]
  simp only [List.mem_filter, and_imp]

/-- Of the costliest directories, the one whose names come first is truncated
next. -/
theorem largestLeaf_eq_some_iff_names (hLaid : LaidOut tree) :
    largestLeaf tree = some visit ↔
      IsCostliest tree visit ∧
        ∀ other, IsCostliest tree other → other ≠ visit → visit.names < other.names := by
  rw [largestLeaf_eq_some_iff hLaid]
  constructor
  · rintro ⟨⟨hMet, hCan⟩, hRank⟩
    have hMost : ∀ other ∈ tree.walk, other.truncatable = true →
        other.dir.total ≤ visit.dir.total := by
      intro other hOther hOtherCan
      by_cases hSame : other = visit
      · exact hSame ▸ le_rfl
      · exact (hRank other hOther hOtherCan hSame).le
    refine ⟨⟨hMet, hCan, hMost⟩, fun other hOther hNe => ?_⟩
    rcases hRank other hOther.met hOther.truncatable hNe with h | h
    · exact absurd h (not_lt.mpr (hOther.most visit hMet hCan))
    · exact h.2
  · rintro ⟨hCostliest, hFirst⟩
    refine ⟨⟨hCostliest.met, hCostliest.truncatable⟩, fun other hOther hCan hNe => ?_⟩
    rcases (hCostliest.most other hOther hCan).lt_or_eq with hLess | hEqual
    · exact Or.inl hLess
    · refine Or.inr ⟨hEqual.symm, hFirst other ⟨hOther, hCan, ?_⟩ hNe⟩
      exact fun third hThird hThirdCan => hEqual ▸ hCostliest.most third hThird hThirdCan

/-- The next directory has the smallest path of the costliest ones exactly
when none of them overtakes it. -/
theorem smallest_path_iff (hLaid : LaidOut tree) (hNext : largestLeaf tree = some visit) :
    (∀ other, IsCostliest tree other → other ≠ visit →
        encode visit.dir.path.toList < encode other.dir.path.toList) ↔
      ∀ other, IsCostliest tree other → ¬Overtakes other.names visit.names := by
  obtain ⟨hVisit, hFirst⟩ := (largestLeaf_eq_some_iff_names hLaid).mp hNext
  have hIff : ∀ other, IsCostliest tree other → other ≠ visit →
      (encode visit.dir.path.toList < encode other.dir.path.toList ↔
        ¬Overtakes other.names visit.names) := fun other hOther hNe =>
    hLaid.encode_lt_iff hVisit.met hOther.met (hFirst other hOther hNe)
  constructor
  · intro hSmallest other hOther
    by_cases hSame : other = visit
    · exact hSame ▸ Overtakes.irrefl _
    · exact (hIff other hOther hSame).mp (hSmallest other hOther hSame)
  · exact fun hNone other hOther hNe => (hIff other hOther hNe).mpr (hNone other hOther)

/-- Truncation goes through directories in their ranking. -/
theorem truncateLeaves_ranked (hLaid : LaidOut tree) (limit rounds : Nat) :
    ∃ visits : List Visit,
      (truncateLeaves limit rounds tree).2 = visits.map (·.dir.path) ∧
      (∀ visit ∈ visits, visit ∈ tree.walk ∧ visit.truncatable = true) ∧
      visits.Pairwise RanksBefore := by
  induction rounds generalizing tree with
  | zero => exact ⟨[], rfl, by simp, .nil⟩
  | succ rounds ih =>
      rw [truncateLeaves]
      split
      · exact ⟨[], rfl, by simp, .nil⟩
      · split
        · exact ⟨[], rfl, by simp, .nil⟩
        · rename_i visit hNext
          obtain ⟨⟨hMet, hCan⟩, hRank⟩ := (largestLeaf_eq_some_iff hLaid).mp hNext
          obtain ⟨visits, hPaths, hVisits, hPairs⟩ := ih (hLaid.truncate visit.chain)
          have hShown : visit.dir.truncated = false := by
            simp only [Visit.truncatable, Bool.and_eq_true, Bool.not_eq_true'] at hCan
            exact hCan.2
          -- what is truncated later was there before and is another directory
          have hLater : ∀ other ∈ visits,
              other ∈ tree.walk ∧ other.truncatable = true ∧ other ≠ visit := by
            intro other hOther
            obtain ⟨hOther, hOtherCan⟩ := hVisits other hOther
            obtain ⟨hOther, hNe⟩ :=
              DirTree.mem_walk_of_truncate hLaid.nodup hMet hShown hOther hOtherCan
            exact ⟨hOther, hOtherCan, hNe⟩
          refine ⟨visit :: visits, by simp [hPaths], ?_, ?_⟩
          · intro other hOther
            rcases List.mem_cons.mp hOther with rfl | hOther
            · exact ⟨hMet, hCan⟩
            · exact ⟨(hLater other hOther).1, (hLater other hOther).2.1⟩
          · refine List.pairwise_cons.mpr ⟨fun other hOther => ?_, hPairs⟩
            obtain ⟨hOther, hOtherCan, hNe⟩ := hLater other hOther
            exact hRank other hOther hOtherCan hNe

end Leaves

/-- The directory that is truncated next is, of the costliest ones, the first
by names. It has the smallest path in the order of octets exactly when none
of them overtakes it. A run of truncation goes through equally costly
directories in the order of their names, which is that of their octets except
where one overtakes. -/
theorem largestLeaf_first_by_names (files : List (Record × Nat)) (edits : List Edit) :
    (largestLeaf (edited files edits) = none ↔
      ∀ visit ∈ (edited files edits).walk, visit.truncatable = false) ∧
    (∀ visit, largestLeaf (edited files edits) = some visit ↔
      IsCostliest (edited files edits) visit ∧
        ∀ other, IsCostliest (edited files edits) other → other ≠ visit →
          visit.names < other.names) ∧
    (∀ visit, largestLeaf (edited files edits) = some visit →
      ((∀ other, IsCostliest (edited files edits) other → other ≠ visit →
          encode visit.dir.path.toList < encode other.dir.path.toList) ↔
        ∀ other, IsCostliest (edited files edits) other →
          ¬Overtakes other.names visit.names)) ∧
    ∀ limit rounds, ∃ visits : List Visit,
      (truncateLeaves limit rounds (edited files edits)).2 = visits.map (·.dir.path) ∧
      (∀ visit ∈ visits, visit ∈ (edited files edits).walk ∧ visit.truncatable = true) ∧
      visits.Pairwise fun first second =>
        RanksBefore first second ∧
          (first.dir.total = second.dir.total →
            (encode first.dir.path.toList < encode second.dir.path.toList ↔
              ¬Overtakes second.names first.names)) := by
  have hLaid := laidOut_edited files edits
  refine ⟨largestLeaf_eq_none_iff _, fun visit => largestLeaf_eq_some_iff_names hLaid,
    fun visit => smallest_path_iff hLaid, fun limit rounds => ?_⟩
  obtain ⟨visits, hPaths, hVisits, hPairs⟩ := truncateLeaves_ranked hLaid limit rounds
  refine ⟨visits, hPaths, hVisits, hPairs.imp_of_mem fun hFirst hSecond hRank => ⟨hRank, ?_⟩⟩
  intro hEqual
  have hLess := (hRank.resolve_left (by simp [hEqual])).2
  exact hLaid.encode_lt_iff (hVisits _ hFirst).1 (hVisits _ hSecond).1 hLess

/-- Two directories of one cost. -/
def twoDirectories : List (Record × Nat) := [(⟨"a-b/g.rs", 5⟩, 0), (⟨"a/x/f.rs", 5⟩, 1)]

/-- The one that is first by names. -/
def firstByNames : Visit where
  chain := [0, 2, 3]
  dir :=
    { id := 3, name := "x", path := "a/x", files := [{ index := 1, path := "a/x/f.rs", cost := 5 }],
      total := 5 }
  leaf := true

/-- The one that is first by octets. -/
def firstByOctets : Visit where
  chain := [0, 1]
  dir :=
    { id := 1, name := "a-b", path := "a-b", files := [{ index := 0, path := "a-b/g.rs", cost := 5 }],
      total := 5 }
  leaf := true

theorem largestLeaf_not_smallest_path :
    largestLeaf (edited twoDirectories []) = some firstByNames ∧
      IsCostliest (edited twoDirectories []) firstByOctets ∧
      encode firstByOctets.dir.path.toList < encode firstByNames.dir.path.toList ∧
      (truncateLeaves 0 2 (edited twoDirectories [])).2 = ["a/x", "a-b"] := by
  exact ⟨by decide +kernel, ⟨by decide +kernel, by decide +kernel, by decide +kernel⟩,
    by decide +kernel, by decide +kernel⟩

end SymbolMap.Plan
