import Mathlib.Data.List.Chain
import SymbolMap.Proofs.DirTree.Sites
import SymbolMap.Proofs.Text.OctetOrder

/-! The numbers of directories. A directory is numbered when it appears, after
the one that it lies in, so numbers rise on the way down from the root. Every
number but that of the root is given to one directory, inside one other. -/
namespace SymbolMap.Plan

open SymbolMap.Text SymbolMap.Path

namespace Forest

/-- The numbers of each directory and of the one that it lies in, for
directories inside `parent`. -/
def links (parent : Nat) : Forest → List (Nat × Nat)
  | nil => []
  | cons dir below rest => (parent, dir.id) :: (below.links dir.id ++ rest.links parent)

/-- Every directory lies in one other. -/
theorem map_snd_links (parent : Nat) (forest : Forest) :
    (forest.links parent).map Prod.snd = forest.ids := by
  induction forest generalizing parent with
  | nil => rfl
  | cons dir below rest ihBelow ihRest => simp [links, ids, ihBelow, ihRest]

section Rising

variable {parent next : Nat} {link : Nat × Nat}

/-- The links of a new branch rise. -/
theorem mem_links_branch {file : PlacedFile} {path name : String} {names : List String}
    {rest : Forest} (hNext : parent < next)
    (hLink : link ∈ (branch file path next name names rest).links parent) :
    link.1 < link.2 ∨ link ∈ rest.links parent := by
  induction names generalizing path parent next name rest with
  | nil =>
      simp only [branch, links, List.nil_append, List.mem_cons] at hLink
      rcases hLink with rfl | hLink
      · exact Or.inl hNext
      · exact Or.inr hLink
  | cons deeper names ih =>
      simp only [branch, links, List.mem_cons, List.mem_append] at hLink
      rcases hLink with rfl | hLink | hLink
      · exact Or.inl hNext
      · refine Or.inl ((ih (Nat.lt_succ_self next) hLink).resolve_right ?_)
        simp [links]
      · exact Or.inr hLink

/-- Insertion keeps the links that are there, and those that it makes rise. -/
theorem mem_links_insert {file : PlacedFile} {path name : String} {names : List String}
    {forest : Forest} (hNext : parent < next) (hIds : ∀ id ∈ forest.ids, id < next)
    (hLink : link ∈ (forest.insert file path next name names).links parent) :
    link.1 < link.2 ∨ link ∈ forest.links parent := by
  induction forest generalizing path parent name names with
  | nil => exact mem_links_branch hNext hLink
  | cons dir below rest ihBelow ihRest =>
      have hHere : dir.id < next := hIds dir.id (by simp [ids])
      have hBelow : ∀ id ∈ below.ids, id < next := fun id hId => hIds id (by simp [ids, hId])
      have hRest : ∀ id ∈ rest.ids, id < next := fun id hId => hIds id (by simp [ids, hId])
      rw [insert_cons] at hLink
      split at hLink
      · cases names with
        | nil => exact Or.inr hLink
        | cons deeper names =>
            simp only [links, List.mem_cons, List.mem_append] at hLink ⊢
            rcases hLink with hLink | hLink | hLink
            · exact Or.inr (Or.inl hLink)
            · exact (ihBelow hHere hBelow hLink).imp_right fun h => Or.inr (Or.inl h)
            · exact Or.inr (Or.inr (Or.inr hLink))
      · split at hLink
        · exact mem_links_branch hNext hLink
        · simp only [links, List.mem_cons, List.mem_append] at hLink ⊢
          rcases hLink with hLink | hLink | hLink
          · exact Or.inr (Or.inl hLink)
          · exact Or.inr (Or.inr (Or.inl hLink))
          · exact (ihRest hNext hRest hLink).imp_right fun h => Or.inr (Or.inr h)

end Rising

/-- The chain to a directory goes from link to link. -/
theorem isChain_of_mem_walk {r : Nat → Nat → Prop} {forest : Forest} {above : List Nat}
    {parent : Nat} (hAbove : above.IsChain r) (hLast : above.getLast? = some parent)
    (hLinks : ∀ link ∈ forest.links parent, r link.1 link.2) {visit : Visit}
    (hVisit : visit ∈ forest.walk above) : visit.chain.IsChain r := by
  induction forest generalizing above parent with
  | nil => simp [walk] at hVisit
  | cons dir below rest ihBelow ihRest =>
      simp only [links, List.mem_cons, List.mem_append] at hLinks
      have hHere : (above ++ [dir.id]).IsChain r := by
        refine hAbove.append (List.isChain_singleton _) ?_
        intro x hx y hy
        rw [hLast, Option.mem_some] at hx
        simp only [List.head?_cons, Option.mem_some] at hy
        subst hx hy
        exact hLinks _ (Or.inl rfl)
      simp only [walk, List.mem_cons, List.mem_append] at hVisit
      rcases hVisit with rfl | hVisit | hVisit
      · exact hHere
      · exact ihBelow hHere (by simp) (fun link h => hLinks link (Or.inr (Or.inl h))) hVisit
      · exact ihRest hAbove hLast (fun link h => hLinks link (Or.inr (Or.inr h))) hVisit

theorem name_of_mem_sites {names : List String} {chain : List Nat} {forest : Forest} {site : Site}
    (hSite : site ∈ forest.sites names chain) : site.names.getLast? = some site.visit.dir.name := by
  induction forest generalizing names chain with
  | nil => simp [sites] at hSite
  | cons dir below rest ihBelow ihRest =>
      simp only [sites, List.mem_cons, List.mem_append] at hSite
      rcases hSite with rfl | hSite | hSite
      · exact List.getLast?_concat
      · exact ihBelow hSite
      · exact ihRest hSite

end Forest

namespace DirTree

/-- The numbers of each directory but the root, and of the one that it lies
in. -/
def links (tree : DirTree) : List (Nat × Nat) := tree.below.links tree.root.id

/-- Insertion leaves the number and the name of the root alone. -/
theorem root_insert (tree : DirTree) (file : Record × Nat) :
    (tree.insert file.2 file.1.path file.1.cost).root.id = tree.root.id ∧
      (tree.insert file.2 file.1.path file.1.cost).root.name = tree.root.name := by
  rw [insert]
  split <;> exact ⟨rfl, rfl⟩

/-- Insertion into a tree whose numbers are below its size keeps the links
that are there, and those that it makes rise. -/
theorem mem_links_insert {tree : DirTree} (hIds : ∀ id ∈ tree.ids, id < tree.size)
    {file : Record × Nat} {link : Nat × Nat}
    (hLink : link ∈ (tree.insert file.2 file.1.path file.1.cost).links) :
    link.1 < link.2 ∨ link ∈ tree.links := by
  rw [links, (tree.root_insert file).1, insert] at hLink
  split at hLink
  · exact Or.inr hLink
  · exact Forest.mem_links_insert (hIds _ List.mem_cons_self)
      (fun id hId => hIds id (List.mem_cons_of_mem _ hId)) hLink

/-- The chain to a directory begins at the root, goes from link to link and
ends at the directory. -/
theorem chain_of_mem_walk {tree : DirTree} {visit : Visit} (hVisit : visit ∈ tree.walk) :
    visit.chain.head? = some tree.root.id ∧ visit.chain.getLast? = some visit.dir.id ∧
      visit.chain.IsChain fun parent id => (parent, id) ∈ tree.links := by
  rcases List.mem_cons.mp hVisit with rfl | hVisit
  · exact ⟨rfl, rfl, List.isChain_singleton _⟩
  · obtain ⟨way, hChain, hLast, _⟩ := Forest.chain_of_mem_walk hVisit
    refine ⟨by simp [hChain], ?_, ?_⟩
    · rw [hChain, List.getLast?_append, hLast]
      rfl
    · exact Forest.isChain_of_mem_walk (List.isChain_singleton _) rfl (fun _ hLink => hLink) hVisit

theorem name_of_mem_sites {tree : DirTree} {site : Site} (hSite : site ∈ tree.sites) :
    site.visit.dir.name = site.names.getLastD tree.root.name := by
  rcases List.mem_cons.mp hSite with rfl | hSite
  · rfl
  · rw [List.getLastD_eq_getLast?, Forest.name_of_mem_sites hSite, Option.getD_some]

end DirTree

section Grow

variable (files : List (Record × Nat))

theorem grow_concat (file : Record × Nat) :
    grow (files ++ [file]) = (grow files).insert file.2 file.1.path file.1.cost := by
  rw [grow, List.foldl_append]
  rfl

theorem root_grow : (grow files).root.id = 0 ∧ (grow files).root.name = "" := by
  induction files using List.reverseRecOn with
  | nil => exact ⟨rfl, rfl⟩
  | append_singleton files file ih =>
      obtain ⟨hId, hName⟩ := (grow files).root_insert file
      rw [grow_concat, hId, hName]
      exact ih

theorem lt_size_of_mem_ids {id : Nat} (hId : id ∈ (grow files).ids) : id < (grow files).size :=
  List.mem_range.mp ((grown_grow files).ids.mem_iff.mp hId)

/-- Numbers rise from a directory to those inside it. -/
theorem links_grow_rise : ∀ link ∈ (grow files).links, link.1 < link.2 := by
  induction files using List.reverseRecOn with
  | nil => simp [grow, DirTree.links, DirTree.empty, Forest.links]
  | append_singleton files file ih =>
      intro link hLink
      rw [grow_concat] at hLink
      rcases DirTree.mem_links_insert (fun _ => lt_size_of_mem_ids files) hLink with hRise | hLink
      · exact hRise
      · exact ih link hLink

/-- The numbers of all directories but the root are those from 1 on. -/
theorem map_snd_links_grow_perm :
    ((grow files).links.map Prod.snd).Perm (List.range' 1 ((grow files).size - 1)) := by
  have hIds := (grown_grow files).ids
  have hRange : List.range (grow files).size = 0 :: List.range' 1 ((grow files).size - 1) := by
    rw [List.range_eq_range', DirTree.size, Nat.add_comm, List.range'_succ, Nat.add_sub_cancel]
  rw [DirTree.ids, (root_grow files).1, hRange] at hIds
  rw [DirTree.links, Forest.map_snd_links]
  exact hIds.cons_inv

end Grow

/-- The octets of each name. -/
def octetsOfNames (names : List String) : List (List UInt8) :=
  names.map fun name => encode name.toList

theorem octetsOfNames_lt {first second : List String} (h : first < second) :
    octetsOfNames first < octetsOfNames second :=
  List.map_lt (fun a b => (lt_iff_encode_lt a b).mp) h

/-- Files put into an empty tree make the root and one directory for each
beginning of their directories, and no other. Each carries its path and its
name and holds its own files in the order of insertion. Each but the root
lies in one other, whose number is smaller. The walk meets every number once,
by the chain that leads to it from the root, in the order of the octets of
names, component by component. -/
theorem grow_lays_out_directories (files : List (Record × Nat)) :
    (grow files).sites.map Site.visit = (grow files).walk ∧
    (∀ names, (∃ site ∈ (grow files).sites, site.names = names) ↔
      names = [] ∨ ∃ file ∈ files, names <+: folder file) ∧
    (∀ site ∈ (grow files).sites,
      site.visit.dir.path = ofNames site.names ∧
      site.visit.dir.name = site.names.getLastD "" ∧
      site.visit.dir.files = (files.filter (folder · = site.names)).map placed) ∧
    (∀ link ∈ (grow files).links, link.1 < link.2) ∧
    ((grow files).links.map Prod.snd).Perm (List.range' 1 ((grow files).size - 1)) ∧
    ((grow files).walk.map (·.dir.id)).Perm (List.range (grow files).size) ∧
    (∀ visit ∈ (grow files).walk,
      visit.chain.head? = some 0 ∧ visit.chain.getLast? = some visit.dir.id ∧
      visit.chain.IsChain fun parent id => (parent, id) ∈ (grow files).links) ∧
    (grow files).sites.Pairwise fun a b => octetsOfNames a.names < octetsOfNames b.names := by
  have hGrown := grown_grow files
  obtain ⟨hRoot, hName⟩ := root_grow files
  refine ⟨DirTree.map_visit_sites _, hGrown.exists_site_iff, ?_, links_grow_rise files,
    map_snd_links_grow_perm files, ?_, ?_, ?_⟩
  · intro site hSite
    refine ⟨(hGrown.dir_of_mem_sites hSite).1, ?_, hGrown.files_of_mem_sites hSite⟩
    rw [DirTree.name_of_mem_sites hSite, hName]
  · rw [DirTree.map_dir_id_walk]
    exact hGrown.ids
  · intro visit hVisit
    rw [← hRoot]
    exact DirTree.chain_of_mem_walk hVisit
  · exact hGrown.pairwise_sites.imp octetsOfNames_lt

end SymbolMap.Plan
