import Mathlib.Data.List.Nodup
import SymbolMap.Proofs.DirTree.Growth

/-! Totals that are kept up to date agree with totals that are counted anew.
A tree is counted when every directory carries its own lines and those of
the directories inside it. Changing one directory and passing the difference
along the chain to it is the same as changing it and counting everything
again. -/
namespace SymbolMap.Plan

section Wrap

/-- A word holds a smaller number as it is. -/
theorem wrap_of_lt {lines : Nat} (hLines : lines < 2 ^ 64) : wrap lines = lines :=
  Nat.mod_eq_of_lt hLines

@[simp] theorem wrap_wrap (lines : Nat) : wrap (wrap lines) = wrap lines :=
  Nat.mod_mod _ _

/-- A sum is the same in a word when its parts are put into words before. -/
@[simp] theorem wrap_add_wrap (lines more : Nat) : wrap (lines + wrap more) = wrap (lines + more) :=
  Nat.add_mod_mod _ _ _

@[simp] theorem wrap_wrap_add (lines more : Nat) : wrap (wrap lines + more) = wrap (lines + more) :=
  Nat.mod_add_mod _ _ _

section Difference

variable {lines lines' gain loss : Nat}

/-- What makes up the difference of two numbers leads from one to the other. -/
theorem shift_wrap (hLines : wrap (lines' + loss) = wrap (lines + gain)) :
    shift gain loss (wrap lines) = wrap lines' := by
  simp only [shift, wrap, wordSize] at hLines ⊢
  omega

/-- The difference of two parts is that of the sums that they are part of. -/
theorem wrap_add_right (hLines : wrap (lines' + loss) = wrap (lines + gain)) (more : Nat) :
    wrap (lines' + more + loss) = wrap (lines + more + gain) := by
  simp only [wrap, wordSize] at hLines ⊢
  omega

theorem wrap_add_left (hLines : wrap (lines' + loss) = wrap (lines + gain)) (more : Nat) :
    wrap (more + lines' + loss) = wrap (more + lines + gain) := by
  rw [Nat.add_comm more, Nat.add_comm more]
  exact wrap_add_right hLines more

end Difference

@[simp] theorem wrap_shownCost (files : List PlacedFile) :
    wrap (shownCost files) = shownCost files := by
  cases files with
  | nil => rfl
  | cons => exact wrap_wrap _

/-- The lines of a directory's own files are counted in a word. -/
@[simp] theorem wrap_ownCost (dir : Directory) : wrap dir.ownCost = dir.ownCost := by
  rw [Directory.ownCost]
  split
  · exact wrap_wrap _
  · exact wrap_shownCost _

end Wrap

/-- A directory with its total put aside. -/
def Directory.bare (dir : Directory) : Directory := { dir with total := 0 }

@[simp] theorem Directory.bare_id (dir : Directory) : dir.bare.id = dir.id := rfl

namespace Forest

theorem map_map (f g : Directory → Directory) (forest : Forest) :
    (forest.map f).map g = forest.map fun dir => g (f dir) := by
  induction forest with
  | nil => rfl
  | cons dir below rest ihBelow ihRest => simp [map, ihBelow, ihRest]

theorem map_id (forest : Forest) : forest.map id = forest := by
  induction forest with
  | nil => rfl
  | cons dir below rest ihBelow ihRest => rw [map, ihBelow, ihRest, id]

theorem isEmpty_map (f : Directory → Directory) (forest : Forest) :
    (forest.map f).isEmpty = forest.isEmpty := by
  cases forest <;> rfl

theorem ids_map {f : Directory → Directory} (hId : ∀ dir, (f dir).id = dir.id)
    (forest : Forest) : (forest.map f).ids = forest.ids := by
  induction forest with
  | nil => rfl
  | cons dir below rest ihBelow ihRest => simp [map, ids, hId, ihBelow, ihRest]

/-- Every directory carries its own lines and those of the directories
inside it. -/
def Counted : Forest → Prop
  | nil => True
  | cons dir below rest =>
    dir.total = wrap (dir.ownCost + below.total) ∧ below.Counted ∧ rest.Counted

theorem counted_recompute (forest : Forest) : forest.recompute.Counted := by
  induction forest with
  | nil => trivial
  | cons dir below rest ihBelow ihRest => exact ⟨rfl, ihBelow, ihRest⟩

/-- Counting anew changes totals only. -/
theorem map_bare_recompute (forest : Forest) :
    forest.recompute.map Directory.bare = forest.map Directory.bare := by
  induction forest with
  | nil => rfl
  | cons dir below rest ihBelow ihRest =>
      simp only [recompute, map, ihBelow, ihRest]
      rfl

/-- Counting anew does not depend on the totals that were there. -/
theorem recompute_map_bare (forest : Forest) :
    (forest.map Directory.bare).recompute = forest.recompute := by
  induction forest with
  | nil => rfl
  | cons dir below rest ihBelow ihRest =>
      simp only [map, recompute, ihBelow, ihRest]
      rfl

theorem recompute_of_counted {forest : Forest} (hCounted : forest.Counted) :
    forest.recompute = forest := by
  induction forest with
  | nil => rfl
  | cons dir below rest ihBelow ihRest =>
      obtain ⟨hTotal, hBelow, hRest⟩ := hCounted
      simp only [recompute, ihBelow hBelow, ihRest hRest, ← hTotal]

/-- The lines of the own files of all directories. -/
def ownTotal : Forest → Nat
  | nil => 0
  | cons dir below rest => dir.ownCost + below.ownTotal + rest.ownTotal

theorem total_recompute (forest : Forest) : forest.recompute.total = wrap forest.ownTotal := by
  induction forest with
  | nil => rfl
  | cons dir below rest ihBelow ihRest =>
      simp only [recompute, total, ownTotal, ihBelow, ihRest, wrap_add_wrap, wrap_wrap_add]

/-- A walk goes down from where it starts: its chains begin with the chain to
the start, go through directories of the forest, and end at the directory
that is visited. -/
theorem chain_of_mem_walk {forest : Forest} {above : List Nat} {visit : Visit}
    (hVisit : visit ∈ forest.walk above) :
    ∃ way, visit.chain = above ++ way ∧ way.getLast? = some visit.dir.id ∧
      ∀ id ∈ way, id ∈ forest.ids := by
  induction forest generalizing above with
  | nil => simp [walk] at hVisit
  | cons dir below rest ihBelow ihRest =>
      simp only [walk, List.mem_cons, List.mem_append] at hVisit
      rcases hVisit with rfl | hBelow | hRest
      · exact ⟨[dir.id], rfl, rfl, by simp [ids]⟩
      · obtain ⟨way, hChain, hLast, hIds⟩ := ihBelow hBelow
        refine ⟨dir.id :: way, by simp [hChain], ?_, ?_⟩
        · rw [List.getLast?_cons, hLast]
          rfl
        · intro id hId
          rcases List.mem_cons.mp hId with rfl | hId
          · simp [ids]
          · simp [ids, hIds id hId]
      · obtain ⟨way, hChain, hLast, hIds⟩ := ihRest hRest
        refine ⟨way, hChain, hLast, fun id hId => ?_⟩
        simp [ids, hIds id hId]

theorem mem_chain_of_mem_walk {forest : Forest} {above : List Nat} {visit : Visit}
    (hVisit : visit ∈ forest.walk above) : visit.dir.id ∈ visit.chain := by
  obtain ⟨way, hChain, hLast, _⟩ := chain_of_mem_walk hVisit
  rw [hChain]
  exact List.mem_append_right _ (List.mem_of_getLast? hLast)

theorem mem_ids_of_mem_walk {forest : Forest} {above : List Nat} {visit : Visit}
    (hVisit : visit ∈ forest.walk above) : visit.dir.id ∈ forest.ids := by
  obtain ⟨way, _, hLast, hIds⟩ := chain_of_mem_walk hVisit
  exact hIds _ (List.mem_of_getLast? hLast)

theorem map_dir_id_walk (forest : Forest) (above : List Nat) :
    (forest.walk above).map (·.dir.id) = forest.ids := by
  induction forest generalizing above with
  | nil => rfl
  | cons dir below rest ihBelow ihRest => simp [walk, ids, ihBelow, ihRest]

end Forest

/-- One directory in the place of the one with its number. -/
def swapIn (dir d : Directory) : Directory := if d.id = dir.id then dir else d

/-- A directory after a gain and a loss, as often as the chain names it. -/
def adjust (chain : List Nat) (gain loss : Nat) (d : Directory) : Directory :=
  { d with total := Nat.repeat (shift gain loss) (chain.count d.id) d.total }

theorem DirTree.update_eq (tree : DirTree) (chain : List Nat) (dir : Directory)
    (gain loss : Nat) :
    tree.update chain dir gain loss =
      tree.map fun d => adjust chain gain loss (swapIn dir d) := rfl

section Update

variable {chain : List Nat} {dir : Directory} {gain loss : Nat}

theorem adjust_of_not_mem {d : Directory} (hChain : d.id ∉ chain) :
    adjust chain gain loss d = d := by
  simp [adjust, List.count_eq_zero_of_not_mem hChain, Nat.repeat]

theorem adjust_of_count_one {d : Directory} (hChain : chain.count d.id = 1) :
    adjust chain gain loss d = { d with total := shift gain loss d.total } := by
  simp [adjust, hChain, Nat.repeat]

theorem swapIn_of_ne {d : Directory} (hId : d.id ≠ dir.id) : swapIn dir d = d :=
  if_neg hId

namespace Forest

/-- A forest through which the chain does not go stays as it is. -/
theorem map_swapIn_of_disjoint (gain loss : Nat) {forest : Forest} (hDir : dir.id ∈ chain)
    (hIds : ∀ id ∈ forest.ids, id ∉ chain) :
    forest.map (swapIn dir) = forest ∧
      (forest.map fun d => adjust chain gain loss (swapIn dir d)) = forest := by
  induction forest with
  | nil => exact ⟨rfl, rfl⟩
  | cons d below rest ihBelow ihRest =>
      have hHere : d.id ∉ chain := hIds d.id (by simp [ids])
      have hNe : d.id ≠ dir.id := fun h => hHere (h ▸ hDir)
      have hBelow := ihBelow fun id hId => hIds id (by simp [ids, hId])
      have hRest := ihRest fun id hId => hIds id (by simp [ids, hId])
      constructor
      · rw [map, swapIn_of_ne hNe, hBelow.1, hRest.1]
      · rw [map, swapIn_of_ne hNe, adjust_of_not_mem hHere, hBelow.2, hRest.2]

/-- Passing a difference along the chain to a changed directory counts the
forest anew, and changes the total of the forest by that difference. -/
theorem adjust_eq_recompute {forest : Forest} {above : List Nat} {visit : Visit}
    (hCounted : forest.Counted) (hNodup : forest.ids.Nodup)
    (hAbove : ∀ id ∈ above, id ∉ forest.ids) (hVisit : visit ∈ forest.walk above)
    (hId : dir.id = visit.dir.id) (hTotal : dir.total = visit.dir.total)
    (hCost : wrap (dir.ownCost + loss) = wrap (visit.dir.ownCost + gain)) :
    (forest.map fun d => adjust visit.chain gain loss (swapIn dir d)) =
        (forest.map (swapIn dir)).recompute ∧
      wrap ((forest.map (swapIn dir)).recompute.total + loss) = wrap (forest.total + gain) := by
  induction forest generalizing above with
  | nil => simp [walk] at hVisit
  | cons d below rest ihBelow ihRest =>
      obtain ⟨hHere, hCountedBelow, hCountedRest⟩ := hCounted
      simp only [ids, List.nodup_cons, List.nodup_append, List.mem_append, not_or] at hNodup
      obtain ⟨⟨hNotBelow, hNotRest⟩, hNodupBelow, hNodupRest, hApart⟩ := hNodup
      have hFresh : d.id ∉ above := fun h => hAbove _ h (by simp [ids])
      have hNotMem : ∀ id ∈ above, id ∉ below.ids ∧ id ∉ rest.ids := by
        intro id hMem
        have h := hAbove id hMem
        simp only [ids, List.mem_cons, List.mem_append, not_or] at h
        exact h.2
      simp only [walk, List.mem_cons, List.mem_append] at hVisit
      rcases hVisit with rfl | hVisit | hVisit
      · -- the changed directory itself: nothing else lies on the chain
        have hMem : dir.id ∈ above ++ [d.id] := by simp [hId]
        have hOff : ∀ id, id ∈ below.ids ∨ id ∈ rest.ids → id ∉ above ++ [d.id] := by
          rintro id hIn hOn
          rcases List.mem_append.mp hOn with hOn | hOn
          · exact hIn.elim (hNotMem id hOn).1 (hNotMem id hOn).2
          · rw [List.mem_singleton.mp hOn] at hIn
            exact hIn.elim hNotBelow hNotRest
        have hBelow := map_swapIn_of_disjoint gain loss hMem fun id h => hOff id (Or.inl h)
        have hRest := map_swapIn_of_disjoint gain loss hMem fun id h => hOff id (Or.inr h)
        have hSwap : swapIn dir d = dir := if_pos hId.symm
        have hCount : (above ++ [d.id]).count dir.id = 1 := by
          rw [hId]
          simp [List.count_eq_zero_of_not_mem hFresh]
        have hSum : wrap (dir.ownCost + below.total + loss) = wrap (d.ownCost + below.total + gain) :=
          wrap_add_right hCost _
        simp only [map, hSwap, hBelow, hRest, recompute, recompute_of_counted hCountedBelow,
          recompute_of_counted hCountedRest, total, adjust_of_count_one hCount, hTotal, hHere,
          shift_wrap hSum, wrap_wrap_add]
        exact ⟨trivial, wrap_add_right hSum _⟩
      · -- inside: the chain names this directory once and avoids its neighbours
        obtain ⟨way, hChain, _, hWay⟩ := chain_of_mem_walk hVisit
        have hMem : dir.id ∈ visit.chain := hId ▸ mem_chain_of_mem_walk hVisit
        have hOff : ∀ id ∈ rest.ids, id ∉ visit.chain := by
          intro id hIn hOn
          rw [hChain, List.append_assoc] at hOn
          simp only [List.mem_append, List.mem_singleton] at hOn
          rcases hOn with hOn | rfl | hOn
          · exact (hNotMem id hOn).2 hIn
          · exact hNotRest hIn
          · exact hApart id (hWay id hOn) id hIn rfl
        have hRest := map_swapIn_of_disjoint gain loss hMem hOff
        have hNe : d.id ≠ dir.id := by
          rw [hId]
          exact fun h => hNotBelow (h ▸ mem_ids_of_mem_walk hVisit)
        have hCount : visit.chain.count d.id = 1 := by
          have hOffWay : d.id ∉ way := fun h => hNotBelow (hWay _ h)
          rw [hChain]
          simp [List.count_eq_zero_of_not_mem hFresh, List.count_eq_zero_of_not_mem hOffWay]
        have hInner : ∀ id ∈ above ++ [d.id], id ∉ below.ids := by
          intro id hOn
          rcases List.mem_append.mp hOn with hOn | hOn
          · exact (hNotMem id hOn).1
          · rw [List.mem_singleton.mp hOn]
            exact hNotBelow
        obtain ⟨hMap, hSum⟩ := ihBelow hCountedBelow hNodupBelow hInner hVisit
        have hSum := wrap_add_left hSum d.ownCost
        simp only [map, swapIn_of_ne hNe, hRest, recompute, recompute_of_counted hCountedRest,
          hMap, total, adjust_of_count_one hCount, hHere, shift_wrap hSum, wrap_wrap_add]
        exact ⟨trivial, wrap_add_right hSum _⟩
      · -- further on: neither this directory nor what lies inside is on the chain
        obtain ⟨way, hChain, _, hWay⟩ := chain_of_mem_walk hVisit
        have hMem : dir.id ∈ visit.chain := hId ▸ mem_chain_of_mem_walk hVisit
        have hOff : ∀ id, id = d.id ∨ id ∈ below.ids → id ∉ visit.chain := by
          rintro id hIn hOn
          rw [hChain, List.mem_append] at hOn
          rcases hIn with rfl | hIn
          · exact hOn.elim hFresh fun h => hNotRest (hWay _ h)
          · exact hOn.elim (fun h => (hNotMem id h).1 hIn)
              fun h => hApart id hIn id (hWay id h) rfl
        have hBelow := map_swapIn_of_disjoint gain loss hMem fun id h => hOff id (Or.inr h)
        have hNe : d.id ≠ dir.id := fun h => hOff d.id (Or.inl rfl) (h ▸ hMem)
        have hRestAbove : ∀ id ∈ above, id ∉ rest.ids := fun id h => (hNotMem id h).2
        obtain ⟨hMap, hSum⟩ := ihRest hCountedRest hNodupRest hRestAbove hVisit
        simp only [map, swapIn_of_ne hNe, adjust_of_not_mem (hOff d.id (Or.inl rfl)), hBelow,
          recompute, recompute_of_counted hCountedBelow, hMap, total, ← hHere, wrap_wrap_add]
        exact ⟨trivial, wrap_add_left hSum _⟩

end Forest

end Update

/-- Change only the directory with a number. -/
def editAt (id : Nat) (f : Directory → Directory) (d : Directory) : Directory :=
  if d.id = id then f d else d

theorem editAt_of_eq {id : Nat} (f : Directory → Directory) {d : Directory} (h : d.id = id) :
    editAt id f d = f d :=
  if_pos h

theorem editAt_of_ne {id : Nat} (f : Directory → Directory) {d : Directory} (h : d.id ≠ id) :
    editAt id f d = d :=
  if_neg h

namespace DirTree

/-- The tree as a forest of one directory, its root. -/
def toForest (tree : DirTree) : Forest := .cons tree.root tree.below .nil

/-- Every directory of the tree carries its own lines and those of the
directories inside it. -/
def Counted (tree : DirTree) : Prop := tree.toForest.Counted

theorem walk_toForest (tree : DirTree) : tree.toForest.walk [] = tree.walk := by
  simp [toForest, Forest.walk, walk]

theorem ids_toForest (tree : DirTree) : tree.toForest.ids = tree.ids := by
  simp [toForest, Forest.ids, ids]

theorem map_toForest (f : Directory → Directory) (tree : DirTree) :
    (tree.map f).toForest = tree.toForest.map f := rfl

theorem recompute_toForest (tree : DirTree) :
    tree.recompute.toForest = tree.toForest.recompute := rfl

theorem toForest_inj {first second : DirTree} (h : first.toForest = second.toForest) :
    first = second := by
  cases first
  cases second
  simp_all [toForest]

theorem map_dir_id_walk (tree : DirTree) : tree.walk.map (·.dir.id) = tree.ids := by
  rw [← walk_toForest, Forest.map_dir_id_walk, ids_toForest]

theorem map_bare_recompute (tree : DirTree) :
    tree.recompute.map Directory.bare = tree.map Directory.bare :=
  toForest_inj (Forest.map_bare_recompute tree.toForest)

theorem map_id (tree : DirTree) : tree.map id = tree := by
  rw [map, Forest.map_id, id]

theorem map_map (f g : Directory → Directory) (tree : DirTree) :
    (tree.map f).map g = tree.map fun dir => g (f dir) := by
  simp only [map, Forest.map_map]

theorem ids_map {f : Directory → Directory} (hId : ∀ dir, (f dir).id = dir.id)
    (tree : DirTree) : (tree.map f).ids = tree.ids := by
  rw [← ids_toForest, map_toForest, Forest.ids_map hId, ids_toForest]

theorem ids_recompute (tree : DirTree) : tree.recompute.ids = tree.ids := by
  rw [← ids_toForest, recompute_toForest,
    ← Forest.ids_map Directory.bare_id tree.toForest.recompute, Forest.map_bare_recompute,
    Forest.ids_map Directory.bare_id, ids_toForest]

theorem counted_recompute (tree : DirTree) : tree.recompute.Counted :=
  Forest.counted_recompute tree.toForest

/-- The total of a tree that is counted anew is that of the own files of all
directories. -/
theorem total_recompute (tree : DirTree) :
    tree.recompute.total = wrap (tree.root.ownCost + tree.below.ownTotal) := by
  simp [recompute, total, Forest.total_recompute]

theorem recompute_map_recompute {f : Directory → Directory}
    (hBare : ∀ dir, (f dir.bare).bare = (f dir).bare) (tree : DirTree) :
    (tree.recompute.map f).recompute = (tree.map f).recompute := by
  apply toForest_inj
  simp only [recompute_toForest, map_toForest]
  rw [← Forest.recompute_map_bare, ← Forest.recompute_map_bare (tree.toForest.map f)]
  have hForest : ∀ forest : Forest, (forest.map f).map Directory.bare =
      ((forest.map Directory.bare).map f).map Directory.bare := by
    intro forest
    simp only [Forest.map_map, hBare]
  rw [hForest, hForest tree.toForest, Forest.map_bare_recompute]

/-- The number of a visited directory finds it. -/
theorem find?_of_mem_walk {tree : DirTree} (hNodup : tree.ids.Nodup) {visit : Visit}
    (hVisit : visit ∈ tree.walk) : tree.find? visit.dir.id = some visit.dir := by
  have hIds : (tree.walk.map (·.dir.id)).Nodup := by
    rw [map_dir_id_walk]
    exact hNodup
  have hFound : tree.walk.find? (·.dir.id == visit.dir.id) = some visit := by
    obtain ⟨before, after, hSplit⟩ := List.append_of_mem hVisit
    rw [hSplit, List.map_append, List.nodup_append] at hIds
    rw [hSplit, List.find?_append, List.find?_eq_none.mpr, List.find?_cons_of_pos (by simp)]
    · rfl
    · intro other hOther
      have h := hIds.2.2 other.dir.id (List.mem_map_of_mem hOther) visit.dir.id (by simp)
      simpa using h
  rw [find?, hFound, Option.map_some]

theorem find?_getLast?_chain {tree : DirTree} (hNodup : tree.ids.Nodup) {visit : Visit}
    (hVisit : visit ∈ tree.walk) :
    visit.chain.getLast?.bind tree.find? = some visit.dir := by
  obtain ⟨way, hChain, hLast, _⟩ := Forest.chain_of_mem_walk (walk_toForest tree ▸ hVisit)
  have hEnd : visit.chain.getLast? = some visit.dir.id := by
    rw [hChain, List.nil_append, hLast]
  rw [hEnd, Option.bind_some, find?_of_mem_walk hNodup hVisit]

end DirTree

section Edit

variable {visit : Visit} {f : Directory → Directory}

theorem Forest.map_congr {forest : Forest} (above : List Nat) {g : Directory → Directory}
    (h : ∀ v ∈ forest.walk above, f v.dir = g v.dir) : forest.map f = forest.map g := by
  induction forest generalizing above with
  | nil => rfl
  | cons dir below rest ihBelow ihRest =>
      have hBelow := ihBelow (above ++ [dir.id]) fun v hv => h v (by simp [walk, hv])
      have hRest := ihRest above fun v hv => h v (by simp [walk, hv])
      rw [map, map, hBelow, hRest, h _ (List.mem_cons_self)]

/-- Changing the directory with a number is putting its changed form in its
place, since no other directory has that number. -/
theorem Forest.map_swapIn_eq {forest : Forest} {above : List Nat} (hNodup : forest.ids.Nodup)
    (hVisit : visit ∈ forest.walk above) (hId : (f visit.dir).id = visit.dir.id) :
    forest.map (swapIn (f visit.dir)) = forest.map (editAt visit.dir.id f) := by
  refine Forest.map_congr above fun v hv => ?_
  rw [← Forest.map_dir_id_walk forest above] at hNodup
  by_cases hSame : v.dir.id = visit.dir.id
  · have hEq : v = visit := List.inj_on_of_nodup_map hNodup hv hVisit hSame
    simp [swapIn, editAt, hEq, hId]
  · simp [swapIn, editAt, hId, hSame]

/-- A file that is left out takes its lines with it. -/
theorem shownCost_set {files : List PlacedFile} {position : Nat} {file : PlacedFile}
    (hFile : files[position]? = some file) (hKept : file.dropped = false) :
    wrap (shownCost (files.set position { file with dropped := true }) + file.cost) =
      wrap (shownCost files) := by
  induction files generalizing position with
  | nil => simp at hFile
  | cons first files ih =>
      cases position with
      | zero =>
          simp only [List.getElem?_cons_zero, Option.some.injEq] at hFile
          subst hFile
          simp [shownCost, hKept, Nat.add_comm]
      | succ position =>
          have hRest : wrap (shownCost (files.set position { file with dropped := true }) +
              file.cost) = wrap (shownCost files + 0) := ih (by simpa using hFile)
          simp only [List.set_cons_succ, shownCost, wrap_wrap, wrap_wrap_add]
          exact wrap_add_left hRest _

namespace DirTree

variable {tree : DirTree}

theorem map_congr {g : Directory → Directory} (h : ∀ v ∈ tree.walk, f v.dir = g v.dir) :
    tree.map f = tree.map g := by
  apply toForest_inj
  rw [map_toForest, map_toForest]
  exact Forest.map_congr [] (walk_toForest tree ▸ h)

/-- Updating a directory that was visited, by the difference that its own
lines make, is changing it and counting all totals anew. -/
theorem update_eq_recompute (f : Directory → Directory) (hCounted : tree.Counted)
    (hNodup : tree.ids.Nodup) (hVisit : visit ∈ tree.walk) {gain loss : Nat}
    (hId : (f visit.dir).id = visit.dir.id)
    (hTotal : (f visit.dir).total = visit.dir.total)
    (hCost : wrap ((f visit.dir).ownCost + loss) = wrap (visit.dir.ownCost + gain)) :
    tree.update visit.chain (f visit.dir) gain loss =
      (tree.map (editAt visit.dir.id f)).recompute := by
  rw [← ids_toForest] at hNodup
  rw [← walk_toForest] at hVisit
  have hUpdate := (Forest.adjust_eq_recompute hCounted hNodup (by simp) hVisit hId hTotal hCost).1
  apply toForest_inj
  rw [update_eq, map_toForest, hUpdate, recompute_toForest, map_toForest,
    Forest.map_swapIn_eq hNodup hVisit hId]

/-- Truncating a directory that was visited marks it and counts all totals
anew. -/
theorem truncate_eq_recompute (hCounted : tree.Counted) (hNodup : tree.ids.Nodup)
    (hVisit : visit ∈ tree.walk) (hShown : visit.dir.truncated = false) :
    tree.truncate visit.chain =
      (tree.map (editAt visit.dir.id fun d => { d with truncated := true })).recompute := by
  rw [truncate, find?_getLast?_chain hNodup hVisit]
  simp only [hShown, Bool.false_eq_true, if_false]
  exact update_eq_recompute (fun d => { d with truncated := true }) hCounted hNodup hVisit rfl rfl
    (congrArg wrap (Nat.add_comm _ _))

/-- Leaving out a file of a directory that was visited marks the file and
counts all totals anew. -/
theorem dropFile_eq_recompute (hCounted : tree.Counted) (hNodup : tree.ids.Nodup)
    (hVisit : visit ∈ tree.walk) (hShown : visit.dir.truncated = false) {position : Nat}
    {file : PlacedFile} (hFile : visit.dir.files[position]? = some file)
    (hKept : file.dropped = false) :
    tree.dropFile visit.chain position =
      (tree.map (editAt visit.dir.id fun d =>
        { d with files := d.files.set position { file with dropped := true } })).recompute := by
  rw [dropFile, find?_getLast?_chain hNodup hVisit]
  simp only [hFile]
  rw [if_neg (by simp [hShown, hKept])]
  refine update_eq_recompute
    (fun d => { d with files := d.files.set position { file with dropped := true } })
    hCounted hNodup hVisit rfl rfl ?_
  simp only [Directory.ownCost, hShown, Bool.false_eq_true, if_false, Nat.add_zero]
  exact shownCost_set hFile hKept

end DirTree

end Edit

end SymbolMap.Plan
