import Mathlib.Data.List.Forall2
import SymbolMap.Proofs.Path.Normalize

/-! Plain paths and the ways to write them. A plain path is the one spelling
of everything that is written with `./` before it, slashes behind it, or
backslashes for its slashes. -/
namespace SymbolMap.Path

open SymbolMap.Text

/-- A path that goes a step down with every segment, without backslashes. -/
structure Plain (path : List Char) : Prop where
  filled : path ≠ []
  steps : ∀ seg ∈ segments path, seg ≠ [] ∧ seg ≠ ['.']
  noBackslash : '\\' ∉ path

instance (path : List Char) : Decidable (Plain path) :=
  decidable_of_iff
    (path ≠ [] ∧ (∀ seg ∈ segments path, seg ≠ [] ∧ seg ≠ ['.']) ∧ '\\' ∉ path)
    ⟨fun h => ⟨h.1, h.2.1, h.2.2⟩, fun h => ⟨h.filled, h.steps, h.noBackslash⟩⟩

/-- One character may be written as itself, and a slash as a backslash. -/
def WrittenAs (c written : Char) : Prop := written = c ∨ c = '/' ∧ written = '\\'

/-- A way to write a path: `./` may stand before it and any number of slashes
behind it, and every slash may be written as a backslash. -/
def Spells (spelling path : List Char) : Prop :=
  ∃ lead count, (lead = [] ∨ lead = ['.', '/']) ∧
    List.Forall₂ WrittenAs (lead ++ path ++ List.replicate count '/') spelling

section Plain

variable {dir path rest : List Char}

theorem Plain.head?_segments (hPlain : Plain path) (more : List (List Char)) :
    (segments path ++ more).head? ≠ some ['.'] := by
  obtain ⟨first, others, hSegs⟩ := List.exists_cons_of_ne_nil (segments_ne_nil path)
  rw [hSegs, List.cons_append, List.head?_cons]
  intro hDot
  exact (hPlain.steps first (by simp [hSegs])).2 (Option.some.inj hDot)

theorem Plain.normalize (hPlain : Plain path) : normalize path = path := by
  refine normalize_eq_self hPlain.noBackslash ?_ fun seg hSeg => (hPlain.steps seg hSeg).1
  simpa using hPlain.head?_segments []

theorem Plain.stripWhere_slash (hPlain : Plain path) : stripWhere (· == '/') path = path :=
  stripWhere_slash_of_segments fun seg hSeg => (hPlain.steps seg hSeg).1

/-- Below a plain path every way down that has neither empty segments nor
backslashes is spelled as it is. -/
theorem Plain.normalize_append (hDir : Plain dir)
    (hRest : ∀ seg ∈ segments rest, seg ≠ [] ∧ '\\' ∉ seg) :
    Path.normalize (dir ++ '/' :: rest) = dir ++ '/' :: rest := by
  refine normalize_eq_self ?_ ?_ ?_
  · intro hChar
    rcases List.mem_append.mp hChar with hChar | hChar
    · exact hDir.noBackslash hChar
    · rw [← ofSegments_segments rest] at hChar
      rcases mem_joinWith ((List.mem_cons.mp hChar).resolve_left (by decide)) with
        hSep | ⟨seg, hSeg, hMem⟩
      · exact absurd hSep (by decide)
      · exact (hRest seg hSeg).2 hMem
  · rw [segments_append]
    exact hDir.head?_segments _
  · intro seg hSeg
    rw [segments_append] at hSeg
    rcases List.mem_append.mp hSeg with hSeg | hSeg
    · exact (hDir.steps seg hSeg).1
    · exact (hRest seg hSeg).1

theorem Plain.segments_below (hPlain : Plain path) :
    ∀ seg ∈ segments path, seg ≠ [] ∧ '\\' ∉ seg :=
  fun seg hSeg => ⟨(hPlain.steps seg hSeg).1,
    fun hChar => hPlain.noBackslash (mem_of_mem_segments hSeg hChar)⟩

end Plain

section Spells

variable {path spelling : List Char}

/-- Slashes for backslashes give the text that was written. -/
theorem slashed_of_writtenAs {text : List Char} (hText : '\\' ∉ text)
    (hWritten : List.Forall₂ WrittenAs text spelling) : slashed spelling = text := by
  induction hWritten with
  | nil => rfl
  | @cons c written text spelling hHere _ ih =>
      simp only [List.mem_cons, not_or] at hText
      have hChar : (if written = '\\' then '/' else written) = c := by
        rcases hHere with rfl | ⟨rfl, rfl⟩
        · rw [if_neg fun h => hText.1 h.symm]
        · rfl
      rw [slashed, List.map_cons, hChar, ← slashed, ih hText.2]

theorem withoutSlashes_append_slashes (path : List Char) (count : Nat) :
    withoutSlashes (path ++ List.replicate count '/') = withoutSlashes path := by
  induction count with
  | zero => rw [List.replicate_zero, List.append_nil]
  | succ count ih =>
      rw [List.replicate_succ', ← List.append_assoc, ← ih]
      simp [withoutSlashes, dropEndWhile]

theorem withoutDot_dot (path : List Char) : withoutDot (['.', '/'] ++ path) = path := by
  rw [withoutDot, (afterLead_eq_some_iff _ _ _).mpr rfl, Option.getD_some]

/-- Slashes behind a plain path do not make it begin at the current
directory. -/
theorem Plain.withoutDot_append_slashes (hPlain : Plain path) (count : Nat) :
    withoutDot (path ++ List.replicate count '/') = path ++ List.replicate count '/' := by
  refine withoutDot_of_no_dot fun hDot => ?_
  have hHead := head?_segments_of_dot hDot
  cases count with
  | zero =>
      rw [List.replicate_zero, List.append_nil] at hHead
      exact hPlain.head?_segments [] (by simpa using hHead)
  | succ count =>
      rw [List.replicate_succ, segments_append] at hHead
      exact hPlain.head?_segments _ hHead

/-- However a plain path is written, its one spelling is the path. -/
theorem Plain.normalize_of_spells (hPlain : Plain path) (hSpells : Spells spelling path) :
    Path.normalize spelling = path := by
  obtain ⟨lead, count, hLead, hWritten⟩ := hSpells
  have hText : '\\' ∉ lead ++ path ++ List.replicate count '/' := by
    have hFront : '\\' ∉ lead := by rcases hLead with rfl | rfl <;> decide
    simp [hFront, hPlain.noBackslash]
  have hDot : withoutDot (lead ++ path ++ List.replicate count '/') =
      path ++ List.replicate count '/' := by
    rcases hLead with rfl | rfl
    · exact hPlain.withoutDot_append_slashes count
    · rw [List.append_assoc, withoutDot_dot]
  obtain ⟨last, hLast, hEnd⟩ :=
    exists_getLast?_of_segments fun seg hSeg => (hPlain.steps seg hSeg).1
  rw [normalize_eq, slashed_of_writtenAs hText hWritten, hDot, withoutSlashes_append_slashes,
    withoutSlashes, dropEndWhile_of_getLast? hLast (by simpa using hEnd)]

end Spells

end SymbolMap.Path
