import SymbolMap.Proofs.DirTree.Sites

/-! Trees that are changed after they are grown. Truncating a directory and
leaving out a file change directories in their places: numbers, names and
paths stay, whichever chain the change is asked for. So every tree that is
grown and then changed lays out its directories by their names. -/
namespace SymbolMap.Plan

open SymbolMap.Path

/-- A change of a tree after it is grown. -/
inductive Edit where
  | truncate (chain : List Nat)
  | dropFile (chain : List Nat) (position : Nat)

def Edit.apply (tree : DirTree) : Edit → DirTree
  | truncate chain => tree.truncate chain
  | dropFile chain position => tree.dropFile chain position

/-- The tree of some files after some changes. -/
def edited (files : List (Record × Nat)) (edits : List Edit) : DirTree :=
  edits.foldl Edit.apply (treeOf files)

/-- What a change of single directories leaves alone. -/
structure Steady (f : Directory → Directory) : Prop where
  id : ∀ dir, (f dir).id = dir.id
  name : ∀ dir, (f dir).name = dir.name
  path : ∀ dir, (f dir).path = dir.path

namespace Steady

theorem refl : Steady fun dir => dir := ⟨fun _ => rfl, fun _ => rfl, fun _ => rfl⟩

theorem truncated : Steady fun dir => { dir with truncated := true } :=
  ⟨fun _ => rfl, fun _ => rfl, fun _ => rfl⟩

theorem bare : Steady Directory.bare := ⟨fun _ => rfl, fun _ => rfl, fun _ => rfl⟩

theorem files (f : List PlacedFile → List PlacedFile) :
    Steady fun dir => { dir with files := f dir.files } :=
  ⟨fun _ => rfl, fun _ => rfl, fun _ => rfl⟩

theorem editAt {f : Directory → Directory} (hSteady : Steady f) (id : Nat) :
    Steady (editAt id f) where
  id dir := by rw [Plan.editAt]; split <;> simp [hSteady.id]
  name dir := by rw [Plan.editAt]; split <;> simp [hSteady.name]
  path dir := by rw [Plan.editAt]; split <;> simp [hSteady.path]

theorem adjust {f : Directory → Directory} (hSteady : Steady f) (chain : List Nat)
    (gain loss : Nat) : Steady fun dir => adjust chain gain loss (f dir) :=
  ⟨hSteady.id, hSteady.name, hSteady.path⟩

end Steady

namespace DirTree

variable {tree : DirTree} {visit : Visit}

theorem exists_mem_walk_of_find? {id : Nat} {dir : Directory} (hFound : tree.find? id = some dir) :
    ∃ visit ∈ tree.walk, visit.dir = dir := by
  obtain ⟨visit, hVisit, hDir⟩ := Option.map_eq_some_iff.mp hFound
  exact ⟨visit, List.mem_of_find?_eq_some hVisit, hDir⟩

/-- Replacing a directory by a changed form of it changes the directories in
their places. -/
theorem update_eq_map (hNodup : tree.ids.Nodup) (hVisit : visit ∈ tree.walk)
    {f : Directory → Directory} (hSteady : Steady f) (chain : List Nat) (gain loss : Nat) :
    tree.update chain (f visit.dir) gain loss =
      tree.map fun d => adjust chain gain loss (editAt visit.dir.id f d) := by
  rw [← ids_toForest] at hNodup
  rw [← walk_toForest] at hVisit
  have hSwap := Forest.map_swapIn_eq hNodup hVisit (hSteady.id _)
  apply toForest_inj
  rw [update_eq, map_toForest, map_toForest, ← Forest.map_map, hSwap, Forest.map_map]

/-- Every update of the directory at the end of a chain changes directories in
their places. -/
theorem exists_update_eq_map (hNodup : tree.ids.Nodup) {chain : List Nat} {dir : Directory}
    (hFound : chain.getLast?.bind tree.find? = some dir) {f : Directory → Directory}
    (hSteady : Steady f) (gain loss : Nat) :
    ∃ g, Steady g ∧ tree.update chain (f dir) gain loss = tree.map g := by
  obtain ⟨id, _, hFound⟩ := Option.bind_eq_some_iff.mp hFound
  obtain ⟨visit, hVisit, rfl⟩ := exists_mem_walk_of_find? hFound
  exact ⟨_, (hSteady.editAt _).adjust chain gain loss, update_eq_map hNodup hVisit hSteady _ _ _⟩

theorem exists_truncate_eq_map (hNodup : tree.ids.Nodup) (chain : List Nat) :
    ∃ f, Steady f ∧ tree.truncate chain = tree.map f := by
  rw [truncate]
  split
  · exact ⟨_, .refl, tree.map_id.symm⟩
  · rename_i dir hFound
    split
    · exact ⟨_, .refl, tree.map_id.symm⟩
    · exact exists_update_eq_map hNodup hFound .truncated _ _

theorem exists_dropFile_eq_map (hNodup : tree.ids.Nodup) (chain : List Nat) (position : Nat) :
    ∃ f, Steady f ∧ tree.dropFile chain position = tree.map f := by
  rw [dropFile]
  split
  · exact ⟨_, .refl, tree.map_id.symm⟩
  · rename_i dir hFound
    split
    · exact ⟨_, .refl, tree.map_id.symm⟩
    · rename_i file _
      split
      · exact ⟨_, .refl, tree.map_id.symm⟩
      · exact exists_update_eq_map hNodup hFound
          (.files (·.set position { file with dropped := true })) _ _

end DirTree

section Truncation

/-- A forest as a part of another: all of it, or a part of what lies inside or
behind its first directory. -/
inductive Forest.Within (part : Forest) : Forest → Prop where
  | here : Within part part
  | inside {dir : Directory} {below rest : Forest} (hPart : Within part below) :
      Within part (cons dir below rest)
  | behind {dir : Directory} {below rest : Forest} (hPart : Within part rest) :
      Within part (cons dir below rest)

/-- The directories inside a visited directory: the chain to a directory leads
through the visited one only if it is the visited one or lies inside. -/
theorem Forest.exists_inside {forest : Forest} {above : List Nat} {outer : Visit}
    (hNodup : forest.ids.Nodup) (hAbove : ∀ id ∈ above, id ∉ forest.ids)
    (hOuter : outer ∈ forest.walk above) :
    ∃ inside rest : Forest, outer.leaf = inside.isEmpty ∧
      (cons outer.dir inside rest).Within forest ∧
      ∀ visit ∈ forest.walk above, outer.dir.id ∈ visit.chain →
        visit = outer ∨ visit ∈ inside.walk outer.chain := by
  induction forest generalizing above with
  | nil => simp [walk] at hOuter
  | cons dir below rest ihBelow ihRest =>
      have hFresh : outer.dir.id ∉ above := fun h => hAbove _ h (mem_ids_of_mem_walk hOuter)
      simp only [ids, List.nodup_cons, List.nodup_append, List.mem_append, not_or] at hNodup
      obtain ⟨⟨hNotBelow, hNotRest⟩, hNodupBelow, hNodupRest, hApart⟩ := hNodup
      have hNotMem : ∀ id ∈ above, id ∉ below.ids ∧ id ∉ rest.ids := by
        intro id hMem
        have h := hAbove id hMem
        simp only [ids, List.mem_cons, List.mem_append, not_or] at h
        exact h.2
      -- what a chain through the outer directory goes through below the start
      have hThrough : ∀ {visit : Visit} {start : List Nat} {part : Forest},
          visit ∈ part.walk start → outer.dir.id ∈ visit.chain → outer.dir.id ∉ start →
            outer.dir.id ∈ part.ids := by
        intro visit start part hVisit hOn hStart
        obtain ⟨way, hChain, _, hWay⟩ := chain_of_mem_walk hVisit
        rw [hChain, List.mem_append] at hOn
        exact hWay _ (hOn.resolve_left hStart)
      simp only [walk, List.mem_cons, List.mem_append] at hOuter
      rcases hOuter with rfl | hOuter | hOuter
      · refine ⟨below, rest, rfl, .here, ?_⟩
        intro visit hVisit hOn
        simp only [walk, List.mem_cons, List.mem_append] at hVisit
        rcases hVisit with rfl | hVisit | hVisit
        · exact Or.inl rfl
        · exact Or.inr hVisit
        · exact absurd (hThrough hVisit hOn hFresh) hNotRest
      · have hId := mem_ids_of_mem_walk hOuter
        have hHere : outer.dir.id ∉ above ++ [dir.id] := by
          simp only [List.mem_append, List.mem_singleton, not_or]
          exact ⟨hFresh, fun h => hNotBelow (h ▸ hId)⟩
        have hInner : ∀ id ∈ above ++ [dir.id], id ∉ below.ids := by
          intro id hOn
          rcases List.mem_append.mp hOn with hOn | hOn
          · exact (hNotMem id hOn).1
          · rw [List.mem_singleton.mp hOn]
            exact hNotBelow
        obtain ⟨inside, beside, hLeaf, hPart, hInside⟩ := ihBelow hNodupBelow hInner hOuter
        refine ⟨inside, beside, hLeaf, .inside hPart, ?_⟩
        intro visit hVisit hOn
        simp only [walk, List.mem_cons, List.mem_append] at hVisit
        rcases hVisit with rfl | hVisit | hVisit
        · exact absurd hOn hHere
        · exact hInside visit hVisit hOn
        · exact absurd rfl (hApart _ hId _ (hThrough hVisit hOn hFresh))
      · have hId := mem_ids_of_mem_walk hOuter
        have hHere : outer.dir.id ∉ above ++ [dir.id] := by
          simp only [List.mem_append, List.mem_singleton, not_or]
          exact ⟨hFresh, fun h => hNotRest (h ▸ hId)⟩
        obtain ⟨inside, beside, hLeaf, hPart, hInside⟩ :=
          ihRest hNodupRest (fun id h => (hNotMem id h).2) hOuter
        refine ⟨inside, beside, hLeaf, .behind hPart, ?_⟩
        intro visit hVisit hOn
        simp only [walk, List.mem_cons, List.mem_append] at hVisit
        rcases hVisit with rfl | hVisit | hVisit
        · exact absurd hOn hHere
        · exact absurd rfl (hApart _ (hThrough hVisit hOn hHere) _ hId)
        · exact hInside visit hVisit hOn

/-- Only a directory with directories inside lies on the chain to another. -/
theorem Forest.eq_of_mem_chain {forest : Forest} {above : List Nat} {leaf visit : Visit}
    (hNodup : forest.ids.Nodup) (hAbove : ∀ id ∈ above, id ∉ forest.ids)
    (hMet : leaf ∈ forest.walk above) (hLeaf : leaf.leaf = true)
    (hVisit : visit ∈ forest.walk above) (hChain : leaf.dir.id ∈ visit.chain) :
    leaf = visit := by
  obtain ⟨inside, _, hEmpty, _, hInside⟩ := exists_inside hNodup hAbove hMet
  rw [hEmpty] at hLeaf
  cases inside with
  | nil => exact ((hInside visit hVisit hChain).resolve_right (by simp [walk])).symm
  | cons => simp [isEmpty] at hLeaf

variable {tree : DirTree} {visit : Visit}

theorem DirTree.truncate_eq_map (hNodup : tree.ids.Nodup) (hVisit : visit ∈ tree.walk)
    (hShown : visit.dir.truncated = false) :
    ∃ gain loss, tree.truncate visit.chain = tree.map fun d =>
      adjust visit.chain gain loss (editAt visit.dir.id (fun d => { d with truncated := true }) d) := by
  rw [truncate, find?_getLast?_chain hNodup hVisit]
  simp only [hShown, Bool.false_eq_true, if_false]
  exact ⟨_, _, update_eq_map hNodup hVisit .truncated _ _ _⟩

/-- Truncating a leaf leaves the other leaves as they are, and takes it from
those that may be truncated. -/
theorem DirTree.mem_walk_of_truncate (hNodup : tree.ids.Nodup) (hVisit : visit ∈ tree.walk)
    (hShown : visit.dir.truncated = false) {other : Visit}
    (hOther : other ∈ (tree.truncate visit.chain).walk) (hNext : other.truncatable = true) :
    other ∈ tree.walk ∧ other ≠ visit := by
  obtain ⟨gain, loss, hTree⟩ := truncate_eq_map hNodup hVisit hShown
  have hSteady := (Steady.truncated.editAt visit.dir.id).adjust visit.chain gain loss
  rw [hTree, ← map_visit_sites,
    sites_map fun dir => ⟨hSteady.id dir, hSteady.name dir⟩, List.map_map] at hOther
  obtain ⟨site, hSite, rfl⟩ := List.mem_map.mp hOther
  have hMet : site.visit ∈ tree.walk := by
    rw [← map_visit_sites]
    exact List.mem_map_of_mem hSite
  simp only [Visit.truncatable, Function.comp_apply, Site.onDir, Bool.and_eq_true,
    Bool.not_eq_true'] at hNext
  obtain ⟨⟨_, hLeaf⟩, hOpen⟩ := hNext
  have hId : site.visit.dir.id ≠ visit.dir.id := by
    intro hId
    rw [editAt_of_eq _ hId] at hOpen
    simp [adjust] at hOpen
  have hNe : site.visit ≠ visit := fun h => hId (congrArg (·.dir.id) h)
  have hOff : site.visit.dir.id ∉ visit.chain := by
    intro hOn
    rw [← ids_toForest] at hNodup
    rw [← walk_toForest] at hMet hVisit
    exact hNe (Forest.eq_of_mem_chain hNodup (by simp) hMet hLeaf hVisit hOn)
  have hSame : (site.onDir fun d => adjust visit.chain gain loss
      (editAt visit.dir.id (fun d => { d with truncated := true }) d)) = site := by
    rw [Site.onDir, editAt_of_ne _ hId, adjust_of_not_mem hOff]
  rw [Function.comp_apply, hSame]
  exact ⟨hMet, hNe⟩

end Truncation

/-- A tree whose directories are numbered without repetition, met in the
order of their names, and carry the paths that these names make. -/
structure LaidOut (tree : DirTree) : Prop where
  nodup : tree.ids.Nodup
  ordered : tree.sites.Pairwise fun a b => a.names < b.names
  path : ∀ site ∈ tree.sites, site.visit.dir.path = ofNames site.names
  steps : ∀ site ∈ tree.sites, ∀ name ∈ site.names, IsStep name

/-- Changing directories in their places keeps the layout, and makes none. -/
theorem laidOut_map_iff {f : Directory → Directory} (hSteady : Steady f) (tree : DirTree) :
    LaidOut (tree.map f) ↔ LaidOut tree := by
  have hSites := DirTree.sites_map (fun dir => ⟨hSteady.id dir, hSteady.name dir⟩) tree
  have hIds := DirTree.ids_map hSteady.id tree
  constructor
  · rintro ⟨hNodup, hOrdered, hPath, hSteps⟩
    rw [hSites, List.pairwise_map] at hOrdered
    rw [hSites, List.forall_mem_map] at hPath hSteps
    exact ⟨hIds ▸ hNodup, hOrdered,
      fun site hSite => (hSteady.path _).symm.trans (hPath site hSite), hSteps⟩
  · rintro ⟨hNodup, hOrdered, hPath, hSteps⟩
    refine ⟨hIds ▸ hNodup, ?_, ?_, ?_⟩ <;> rw [hSites]
    · exact List.pairwise_map.mpr hOrdered
    · exact List.forall_mem_map.mpr fun site hSite => (hSteady.path _).trans (hPath site hSite)
    · exact List.forall_mem_map.mpr hSteps

namespace LaidOut

variable {tree : DirTree}

theorem recompute (hLaid : LaidOut tree) : LaidOut tree.recompute := by
  rwa [← laidOut_map_iff .bare, DirTree.map_bare_recompute, laidOut_map_iff .bare]

theorem truncate (hLaid : LaidOut tree) (chain : List Nat) : LaidOut (tree.truncate chain) := by
  obtain ⟨f, hSteady, hTree⟩ := DirTree.exists_truncate_eq_map hLaid.nodup chain
  rw [hTree]
  exact (laidOut_map_iff hSteady tree).mpr hLaid

theorem dropFile (hLaid : LaidOut tree) (chain : List Nat) (position : Nat) :
    LaidOut (tree.dropFile chain position) := by
  obtain ⟨f, hSteady, hTree⟩ := DirTree.exists_dropFile_eq_map hLaid.nodup chain position
  rw [hTree]
  exact (laidOut_map_iff hSteady tree).mpr hLaid

end LaidOut

theorem laidOut_treeOf (files : List (Record × Nat)) : LaidOut (treeOf files) := by
  have hGrown := grown_grow files
  rw [treeOf_eq]
  exact LaidOut.recompute ⟨hGrown.nodup_ids, hGrown.pairwise_sites,
    fun _ hSite => (hGrown.dir_of_mem_sites hSite).1, fun _ hSite => hGrown.isStep_of_mem_sites hSite⟩

/-- Changes keep the layout of a tree. -/
theorem LaidOut.edits {tree : DirTree} (hLaid : LaidOut tree) (edits : List Edit) :
    LaidOut (edits.foldl Edit.apply tree) := by
  induction edits generalizing tree with
  | nil => exact hLaid
  | cons edit edits ih =>
      rw [List.foldl_cons]
      apply ih
      cases edit with
      | truncate chain => exact hLaid.truncate chain
      | dropFile chain position => exact hLaid.dropFile chain position

theorem laidOut_edited (files : List (Record × Nat)) (edits : List Edit) :
    LaidOut (edited files edits) :=
  (laidOut_treeOf files).edits edits

end SymbolMap.Plan
