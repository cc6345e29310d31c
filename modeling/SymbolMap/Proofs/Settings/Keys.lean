import Mathlib.Data.List.Nodup
import SymbolMap.Settings.Layers

/-! Keys of settings. However a layer of settings is written, as a document or
in variables, no table in it has two fields under one key, so that a field is
found whole under its key. -/
namespace SymbolMap.Settings

section Fields

/-- No table in a value has two fields under one key. What an array holds does
not count, since an array is only ever replaced as a whole. -/
inductive Value.Distinct : Value → Prop where
  | str (text : String) : Distinct (.str text)
  | int (number : Int) : Distinct (.int number)
  | float : Distinct .float
  | bool (flag : Bool) : Distinct (.bool flag)
  | arr (items : List Value) : Distinct (.arr items)
  | table {fields : Fields} (hKeys : (fields.map Prod.fst).Nodup)
      (hValues : ∀ field ∈ fields, Distinct field.2) : Distinct (.table fields)

theorem distinct_table_iff (fields : Fields) :
    (Value.table fields).Distinct ↔
      (fields.map Prod.fst).Nodup ∧ ∀ field ∈ fields, field.2.Distinct := by
  constructor
  · intro hDistinct
    cases hDistinct with
    | table hKeys hValues => exact ⟨hKeys, hValues⟩
  · rintro ⟨hKeys, hValues⟩
    exact .table hKeys hValues

theorem distinct_table_nil : (Value.table []).Distinct := by
  rw [distinct_table_iff]
  simp

theorem distinct_table_cons_iff (key : String) (value : Value) (fields : Fields) :
    (Value.table ((key, value) :: fields)).Distinct ↔
      key ∉ fields.map Prod.fst ∧ value.Distinct ∧ (Value.table fields).Distinct := by
  rw [distinct_table_iff, distinct_table_iff, List.map_cons, List.nodup_cons, List.forall_mem_cons]
  tauto

theorem distinct_table_single (key : String) {value : Value} (hValue : value.Distinct) :
    (Value.table [(key, value)]).Distinct :=
  (distinct_table_cons_iff _ _ _).mpr ⟨by simp, hValue, distinct_table_nil⟩

theorem distinct_of_field? {fields : Fields} (hFields : (Value.table fields).Distinct)
    {key : String} {value : Value} (hField : field? key fields = some value) : value.Distinct := by
  obtain ⟨front, back, rfl, _⟩ := List.lookup_eq_some_iff.mp hField
  exact ((distinct_table_iff _).mp hFields).2 (key, value) (by simp)

@[simp] theorem field?_nil (key : String) : field? key [] = none := rfl

theorem field?_cons (key : String) (entry : String × Value) (fields : Fields) :
    field? key (entry :: fields) = if key = entry.1 then some entry.2 else field? key fields := by
  obtain ⟨first, value⟩ := entry
  by_cases hKey : key = first
  · simp [field?, hKey]
  · simp [field?, List.lookup_cons, beq_eq_false_iff_ne.mpr hKey, hKey]

theorem field?_eq_none_iff (key : String) (fields : Fields) :
    field? key fields = none ↔ key ∉ fields.map Prod.fst := by
  simp only [field?, List.lookup_eq_none_iff, bne_iff_ne, List.mem_map, not_exists, not_and]
  exact forall₂_congr fun field _ => ne_comm

theorem field?_setField (key other : String) (value : Value) (fields : Fields) :
    field? other (setField key value fields) =
      if other = key then some value else field? other fields := by
  induction fields with
  | nil => simp [setField, field?_cons]
  | cons entry fields ih =>
      obtain ⟨first, old⟩ := entry
      by_cases hFirst : first = key
      · subst hFirst
        by_cases hOther : other = first <;> simp [setField, field?_cons, hOther]
      · rw [setField, if_neg hFirst, field?_cons, ih, field?_cons]
        by_cases hOther : other = first
        · subst hOther
          simp [hFirst]
        · simp [hOther]

theorem mem_keys_setField {key other : String} {value : Value} {fields : Fields} :
    other ∈ (setField key value fields).map Prod.fst ↔
      other = key ∨ other ∈ fields.map Prod.fst := by
  rw [← not_iff_not, ← field?_eq_none_iff, field?_setField, not_or, ← field?_eq_none_iff]
  by_cases hOther : other = key <;> simp [hOther]

theorem distinct_setField {key : String} {value : Value} {fields : Fields}
    (hFields : (Value.table fields).Distinct) (hValue : value.Distinct) :
    (Value.table (setField key value fields)).Distinct := by
  induction fields with
  | nil => exact distinct_table_single key hValue
  | cons entry fields ih =>
      obtain ⟨first, old⟩ := entry
      obtain ⟨hFirst, hOld, hRest⟩ := (distinct_table_cons_iff _ _ _).mp hFields
      by_cases hSame : first = key
      · rw [setField, if_pos hSame, distinct_table_cons_iff]
        exact ⟨hSame ▸ hFirst, hValue, hRest⟩
      · rw [setField, if_neg hSame, distinct_table_cons_iff, mem_keys_setField, not_or]
        exact ⟨⟨hSame, hFirst⟩, hOld, ih hRest⟩

theorem distinct_nest {value : Value} (hValue : value.Distinct) (keys : List String) :
    (nest value keys).Distinct := by
  induction keys with
  | nil => exact hValue
  | cons key keys ih => exact distinct_table_single key ih

end Fields

section Merging

/-- A value over an earlier one, where either may be missing. -/
def over? (earlier later : Option Value) : Option Value :=
  match earlier, later with
  | some old, some value => some (old.over value)
  | none, some value => some value
  | earlier, none => earlier

theorem fieldsOver_cons (earlier : Fields) (key : String) (value : Value) (later : Fields) :
    ∃ merged, over? (field? key earlier) (some value) = some merged ∧
      fieldsOver earlier ((key, value) :: later) =
        fieldsOver (setField key merged earlier) later := by
  rw [fieldsOver]
  cases field? key earlier with
  | none => exact ⟨value, rfl, rfl⟩
  | some old => exact ⟨old.over value, rfl, rfl⟩

/-- A key has its later value over its earlier one. -/
theorem field?_fieldsOver {later : Fields} (hKeys : (later.map Prod.fst).Nodup) (earlier : Fields)
    (key : String) :
    field? key (fieldsOver earlier later) = over? (field? key earlier) (field? key later) := by
  induction later generalizing earlier with
  | nil =>
      rw [fieldsOver, field?_nil]
      cases field? key earlier <;> rfl
  | cons entry later ih =>
      obtain ⟨first, value⟩ := entry
      obtain ⟨hFirst, hRest⟩ := List.nodup_cons.mp hKeys
      obtain ⟨merged, hMerged, hOver⟩ := fieldsOver_cons earlier first value later
      rw [hOver, ih hRest, field?_setField, field?_cons]
      by_cases hKey : key = first
      · subst hKey
        rw [(field?_eq_none_iff key later).mpr hFirst, if_pos rfl, if_pos rfl, hMerged]
        rfl
      · simp [hKey]

/-- Fields are set over others one after the other, so they stay distinct when
each value over another does. -/
theorem distinct_fieldsOver_of {later : Fields} (hLater : ∀ field ∈ later, field.2.Distinct ∧
      ∀ old : Value, old.Distinct → (old.over field.2).Distinct)
    {earlier : Fields} (hEarlier : (Value.table earlier).Distinct) :
    (Value.table (fieldsOver earlier later)).Distinct := by
  induction later generalizing earlier with
  | nil => rwa [fieldsOver]
  | cons entry later ih =>
      obtain ⟨key, value⟩ := entry
      obtain ⟨⟨hValue, hOver⟩, hRest⟩ := List.forall_mem_cons.mp hLater
      obtain ⟨merged, hMerged, hCons⟩ := fieldsOver_cons earlier key value later
      have hDistinct : merged.Distinct := by
        cases hOld : field? key earlier with
        | none =>
            rw [hOld] at hMerged
            exact Option.some.inj hMerged ▸ hValue
        | some old =>
            rw [hOld] at hMerged
            exact Option.some.inj hMerged ▸ hOver old (distinct_of_field? hEarlier hOld)
      rw [hCons]
      exact ih hRest (distinct_setField hEarlier hDistinct)

theorem distinct_over {later : Value} (hLater : later.Distinct) {earlier : Value}
    (hEarlier : earlier.Distinct) : (earlier.over later).Distinct := by
  induction hLater generalizing earlier with
  | table hKeys hValues ih =>
      cases earlier with
      | table fields =>
          rw [Value.over]
          exact distinct_fieldsOver_of
            (fun field hField => ⟨hValues field hField, fun _ => ih field hField⟩) hEarlier
      | _ =>
          rw [Value.over]
          · exact .table hKeys hValues
          · simp
  | _ =>
      rw [Value.over]
      · constructor
      · simp

theorem distinct_fieldsOver {earlier later : Fields} (hEarlier : (Value.table earlier).Distinct)
    (hLater : (Value.table later).Distinct) :
    (Value.table (fieldsOver earlier later)).Distinct := by
  have hOver := distinct_over hLater hEarlier
  rwa [Value.over] at hOver

end Merging

section Documents

open Toml Toml.Entries

/-- A change of fields that brings in no key but one, and no key twice. -/
structure KeepsKeys (key : String) (before after : Fields) : Prop where
  keys : ∀ other ∈ after.map Prod.fst, other = key ∨ other ∈ before.map Prod.fst
  distinct : (Value.table before).Distinct → (Value.table after).Distinct

/-- Fields under other keys may stand in front. -/
theorem KeepsKeys.cons {key first : String} {before after : Fields}
    (hKeeps : KeepsKeys key before after) (hFirst : first ≠ key) (value : Value) :
    KeepsKeys key ((first, value) :: before) ((first, value) :: after) where
  keys := by
    intro other hOther
    rcases List.mem_cons.mp hOther with rfl | hOther
    · exact Or.inr List.mem_cons_self
    · exact (hKeeps.keys other hOther).imp_right (List.mem_cons_of_mem _)
  distinct := by
    rw [distinct_table_cons_iff, distinct_table_cons_iff]
    rintro ⟨hNew, hValue, hRest⟩
    refine ⟨fun hMem => ?_, hValue, hKeeps.distinct hRest⟩
    rcases hKeeps.keys first hMem with rfl | hOld
    · exact hFirst rfl
    · exact hNew hOld

/-- The value under the first key may change. -/
theorem KeepsKeys.change (key : String) {old value : Value} (rest : Fields)
    (hValue : old.Distinct → value.Distinct) :
    KeepsKeys key ((key, old) :: rest) ((key, value) :: rest) where
  keys := fun other hOther => Or.inr hOther
  distinct := by
    rw [distinct_table_cons_iff, distinct_table_cons_iff]
    exact fun h => ⟨h.1, hValue h.2.1, h.2.2⟩

theorem keepsKeys_single (key : String) {value : Value} (hValue : value.Distinct) :
    KeepsKeys key [] [(key, value)] where
  keys := by simp
  distinct := fun _ => distinct_table_single key hValue

/-- A change behind an entry under another key. -/
theorem keepsKeys_past {key first : String} {value : Value} {entry : Entries → Entries}
    {rest changed : Entries} {result : Option Entries}
    (hEntry : ∀ rest, (entry rest).toFields = (first, value) :: rest.toFields)
    (hFirst : first ≠ key)
    (hKeeps : ∀ more, result = some more → KeepsKeys key rest.toFields more.toFields)
    (hChanged : result.map entry = some changed) :
    KeepsKeys key (entry rest).toFields changed.toFields := by
  obtain ⟨more, hMore, rfl⟩ := Option.map_eq_some_iff.mp hChanged
  rw [hEntry, hEntry]
  exact (hKeeps more hMore).cons hFirst value

theorem keepsKeys_add {key : String} {value : Value} (hValue : value.Distinct)
    {entries changed : Entries} (hAdd : entries.add key value = some changed) :
    KeepsKeys key entries.toFields changed.toFields := by
  fun_induction add key value entries generalizing changed with
  | case1 =>
      cases hAdd
      exact keepsKeys_single key hValue
  | case2 | case4 | case6 => cases hAdd
  | case3 k w rest hOther ih | case5 k origin inner rest hOther ih
  | case7 k done last rest hOther ih =>
      exact keepsKeys_past (fun _ => rfl) hOther (fun _ => ih) hAdd

theorem keepsKeys_openTable {key : String} {entries changed : Entries}
    (hOpen : entries.openTable key = some changed) :
    KeepsKeys key entries.toFields changed.toFields := by
  fun_induction openTable key entries generalizing changed with
  | case1 =>
      cases hOpen
      exact keepsKeys_single key distinct_table_nil
  | case2 | case5 | case7 => cases hOpen
  | case4 =>
      cases hOpen
      exact KeepsKeys.change key _ id
  | case3 k w rest hOther ih | case6 k origin inner rest hOther ih
  | case8 k done last rest hOther ih =>
      exact keepsKeys_past (fun _ => rfl) hOther (fun _ => ih) hOpen

theorem keepsKeys_pushTable {key : String} {entries changed : Entries}
    (hPush : entries.pushTable key = some changed) :
    KeepsKeys key entries.toFields changed.toFields := by
  fun_induction pushTable key entries generalizing changed with
  | case1 =>
      cases hPush
      exact keepsKeys_single key (.arr _)
  | case2 | case4 => cases hPush
  | case6 =>
      cases hPush
      exact KeepsKeys.change key _ fun _ => .arr _
  | case3 k w rest hOther ih | case5 k origin inner rest hOther ih
  | case7 k done last rest hOther ih =>
      exact keepsKeys_past (fun _ => rfl) hOther (fun _ => ih) hPush

/-- A change inside a table that brings in no key twice. -/
def KeepsDistinct (change : Change) : Prop :=
  ∀ origin before after, change origin before = some after →
    (Value.table before.toFields).Distinct → (Value.table after.toFields).Distinct

variable {change : Change} {created here : Origin} {keys : List String} {entries changed : Entries}

theorem distinct_fresh (hChange : KeepsDistinct change)
    (hFresh : fresh created change keys = some entries) :
    (Value.table entries.toFields).Distinct := by
  induction keys generalizing entries with
  | nil => exact hChange _ _ _ hFresh distinct_table_nil
  | cons key keys ih =>
      obtain ⟨inner, hInner, rfl⟩ := Option.map_eq_some_iff.mp hFresh
      exact distinct_table_single key (ih hInner)

/-- A change further inside concerns only the first key on the way. -/
theorem distinct_within (hChange : KeepsDistinct change)
    (hWithin : within created change here keys entries = some changed) :
    ((Value.table entries.toFields).Distinct → (Value.table changed.toFields).Distinct) ∧
      ∀ key ∈ keys.head?, KeepsKeys key entries.toFields changed.toFields := by
  have hFirst : ∀ {key : String} {keys : List String} {before after : Fields},
      KeepsKeys key before after → ((Value.table before).Distinct → (Value.table after).Distinct) ∧
        ∀ first ∈ (key :: keys).head?, KeepsKeys first before after := fun hKeeps =>
    ⟨hKeeps.distinct, fun first hHead => Option.some.inj hHead ▸ hKeeps⟩
  fun_induction within created change here keys entries generalizing changed with
  | case1 here entries => exact ⟨hChange _ _ _ hWithin, by simp⟩
  | case2 here keys hNe =>
      cases keys with
      | nil => exact absurd rfl hNe
      | cons key keys =>
          obtain ⟨inner, hInner, rfl⟩ := Option.map_eq_some_iff.mp hWithin
          exact hFirst (keepsKeys_single key (distinct_fresh hChange hInner))
  | case3 | case5 => cases hWithin
  | case6 here keys key origin inner rest _ ih =>
      obtain ⟨inner', hInner, rfl⟩ := Option.map_eq_some_iff.mp hWithin
      exact hFirst (KeepsKeys.change key _ (ih hInner).1)
  | case8 here keys key done last rest ih =>
      obtain ⟨last', _, rfl⟩ := Option.map_eq_some_iff.mp hWithin
      exact hFirst (KeepsKeys.change key _ fun _ => .arr _)
  | case4 here key keys k v rest hOther ih | case7 here key keys k origin inner rest hOther ih
  | case9 here key keys k done last rest hOther ih =>
      exact hFirst (keepsKeys_past (fun _ => rfl) hOther
        (fun _ hMore => (ih hMore).2 key rfl) hWithin)

theorem keepsDistinct_addDotted (keys : List String) (key : String) {value : Value}
    (hValue : value.Distinct) :
    KeepsDistinct fun origin inner => inner.addDotted keys key value origin := by
  intro origin before after hAdd
  refine (distinct_within ?_ hAdd).1
  intro origin before after hAfter
  dsimp only at hAfter
  split at hAfter
  · exact (keepsKeys_add hValue hAfter).distinct
  · cases hAfter

theorem distinct_wordValue? {word : List Char} {value : Value}
    (hWord : wordValue? word = some value) : value.Distinct := by
  revert hWord
  fun_cases wordValue? word with
  | case1 | case2 =>
      rintro ⟨⟩
      exact .bool _
  | case3 =>
      rintro ⟨⟩
      exact .int _
  | case4 | case7 => rintro ⟨⟩
  | case5 =>
      rintro ⟨⟩
      exact .float
  | case6 =>
      rintro ⟨⟩
      exact distinct_table_single _ (.str _)

/-- What is read in front of a rest and turned into a value. -/
theorem distinct_of_map {α : Type} {read : Option α} {make : α → Value × List Char}
    {value : Value} {rest : List Char} (hMake : ∀ a, read = some a → (make a).1.Distinct)
    (hMap : read.map make = some (value, rest)) : value.Distinct := by
  obtain ⟨a, hRead, hSame⟩ := Option.map_eq_some_iff.mp hMap
  have hValue := hMake a hRead
  rwa [hSame] at hValue

theorem distinct_readWord? {s rest : List Char} {value : Value}
    (hRead : readWord? s = some (value, rest)) : value.Distinct := by
  revert hRead
  fun_cases readWord? s with
  | case1 | case2 | case3 => exact distinct_of_map fun _ => distinct_wordValue?

/-- A value of a document, and the fields of a table that stands on one line. -/
theorem distinct_readValue? (fuel : Nat) :
    (∀ levels s value rest, Toml.readValue? fuel levels s = some (value, rest) → value.Distinct) ∧
    ∀ levels entries s changed rest, Toml.readPairs? fuel levels entries s = some (changed, rest) →
      (Value.table entries.toFields).Distinct → (Value.table changed.toFields).Distinct := by
  induction fuel with
  | zero => simp [Toml.readValue?, Toml.readPairs?]
  | succ fuel ih =>
      obtain ⟨ihValue, ihPairs⟩ := ih
      constructor
      · intro levels s value rest hRead
        rw [Toml.readValue?.eq_def] at hRead
        dsimp only at hRead
        split at hRead
        · exact distinct_of_map (fun _ _ => .str _) hRead
        · exact distinct_of_map (fun _ _ => .str _) hRead
        · cases hRead
        · exact distinct_of_map (fun _ _ => .arr _) hRead
        · cases hRead
        · split at hRead
          · cases hRead
            exact distinct_table_nil
          · exact distinct_of_map
              (fun _ hPairs => ihPairs _ .nil _ _ _ hPairs distinct_table_nil) hRead
        · exact distinct_readWord? hRead
      · intro levels entries s changed rest hRead hEntries
        simp only [Toml.readPairs?, Option.bind_eq_bind, Option.bind_eq_some_iff, Prod.exists]
          at hRead
        obtain ⟨keys, key, afterKeys, _, value, after, hValue, more, hMore, hRead⟩ := hRead
        have hMoreDistinct : (Value.table more.toFields).Distinct :=
          keepsDistinct_addDotted keys key (ihValue _ _ _ _ hValue) _ _ _ hMore hEntries
        split at hRead
        · exact ihPairs _ _ _ _ _ hRead hMoreDistinct
        · cases hRead
          exact hMoreDistinct
        · cases hRead

theorem distinct_readExpression? {fuel : Nat} {state next : State} {s rest : List Char}
    (hRead : readExpression? fuel state s = some (next, rest))
    (hState : (Value.table state.entries.toFields).Distinct) :
    (Value.table next.entries.toFields).Distinct := by
  rw [readExpression?.eq_def] at hRead
  split at hRead
  · simp only [Option.bind_eq_bind, Option.bind_eq_some_iff, Prod.exists] at hRead
    obtain ⟨keys, key, after, _, changed, hChanged, hSame⟩ := hRead
    cases hSame
    exact (distinct_within (fun _ _ _ hPush => (keepsKeys_pushTable hPush).distinct)
      hChanged).1 hState
  · simp only [Option.bind_eq_bind, Option.bind_eq_some_iff, Prod.exists] at hRead
    obtain ⟨keys, key, after, _, changed, hChanged, hSame⟩ := hRead
    cases hSame
    exact (distinct_within (fun _ _ _ hOpen => (keepsKeys_openTable hOpen).distinct)
      hChanged).1 hState
  · simp only [Option.bind_eq_bind, Option.bind_eq_some_iff, Prod.exists] at hRead
    obtain ⟨keys, key, afterKeys, _, value, after, hValue, changed, hChanged, hSame⟩ := hRead
    cases hSame
    have hDistinct := (distinct_readValue? fuel).1 _ _ _ _ hValue
    exact (distinct_within (keepsDistinct_addDotted keys key hDistinct) hChanged).1 hState

theorem distinct_readLines? {fuel : Nat} {state final : State} {s : List Char}
    (hRead : readLines? fuel state s = some final)
    (hState : (Value.table state.entries.toFields).Distinct) :
    (Value.table final.entries.toFields).Distinct := by
  induction fuel generalizing state s with
  | zero => simp [readLines?] at hRead
  | succ fuel ih =>
      rw [readLines?.eq_def] at hRead
      dsimp only at hRead
      split at hRead
      · cases hRead
        exact hState
      · exact ih hRead hState
      · exact ih hRead hState
      · obtain ⟨after, _, hRead⟩ := Option.bind_eq_some_iff.mp hRead
        exact ih hRead hState
      · simp only [Option.bind_eq_bind, Option.bind_eq_some_iff, Prod.exists] at hRead
        obtain ⟨next, after, hNext, line, _, hRead⟩ := hRead
        exact ih hRead (distinct_readExpression? hNext hState)

theorem distinct_read? {text : List Char} {fields : Fields} (hRead : read? text = some fields) :
    (Value.table fields).Distinct := by
  obtain ⟨final, hFinal, rfl⟩ := Option.map_eq_some_iff.mp hRead
  exact distinct_readLines? hFinal distinct_table_nil

end Documents

section Variables

open Environment

theorem distinct_bareValue (s : List Char) : (bareValue s).Distinct := by
  fun_cases bareValue s with
  | case1 => exact .float
  | case2 => exact .int _
  | case3 => exact .str _

/-- Blanks behind a value do not matter. -/
theorem distinct_of_read {read : Option (Value × List Char)} {value : Value} {rest : List Char}
    (hDistinct : ∀ {after}, read = some (value, after) → value.Distinct)
    (hRead : (read.bind fun (value, s) => some (value, Environment.skipBlanks s)) =
      some (value, rest)) : value.Distinct := by
  obtain ⟨⟨found, after⟩, hFound, hSame⟩ := Option.bind_eq_some_iff.mp hRead
  cases hSame
  exact hDistinct hFound

/-- A value of a variable, and the fields of a table in it. -/
theorem distinct_readValue?_variable (fuel : Nat) :
    (∀ s value rest, Environment.readValue? fuel s = some (value, rest) → value.Distinct) ∧
    ∀ fields s read rest, Environment.readPairs? fuel fields s = some (read, rest) →
      (Value.table fields).Distinct → (Value.table read).Distinct := by
  induction fuel with
  | zero => simp [Environment.readValue?, Environment.readPairs?]
  | succ fuel ih =>
      obtain ⟨ihValue, ihPairs⟩ := ih
      constructor
      · intro s value rest hRead
        rw [Environment.readValue?] at hRead
        split at hRead
        · cases hRead
          exact .bool _
        split at hRead
        · cases hRead
          exact .bool _
        split at hRead
        · exact distinct_of_read
            (distinct_of_map fun _ hPairs => ihPairs _ _ _ _ hPairs distinct_table_nil) hRead
        · exact distinct_of_read (distinct_of_map fun _ _ => .arr _) hRead
        · exact distinct_of_read (distinct_of_map fun _ _ => .str _) hRead
        · split at hRead
          · cases hRead
            exact .str _
          · cases hRead
        · cases hRead
          exact distinct_bareValue _
      · intro fields s read rest hRead hFields
        rw [Environment.readPairs?.eq_def] at hRead
        dsimp only at hRead
        split at hRead
        · cases hRead
          exact hFields
        · simp only [Option.bind_eq_bind, Option.bind_eq_some_iff, Prod.exists] at hRead
          obtain ⟨key, afterKey, _, value, after, hValue, hRead⟩ := hRead
          have hMore : (Value.table (setField key value fields)).Distinct :=
            distinct_setField hFields (ihValue _ _ _ hValue)
          split at hRead
          · exact ihPairs _ _ _ _ hRead hMore
          · cases hRead
            exact hMore
          · cases hRead

theorem distinct_valueOf (text : String) : (valueOf text).Distinct := by
  rw [valueOf]
  split
  · rename_i value hRead
    exact (distinct_readValue?_variable _).1 _ _ _ hRead
  · exact .str text

theorem distinct_fieldsOf (vars : Variables) : (Value.table (fieldsOf vars)).Distinct := by
  rw [fieldsOf]
  refine List.foldlRecOn (motive := fun fields => (Value.table fields).Distinct) vars _
    distinct_table_nil fun fields hFields entry _ => ?_
  dsimp only
  split
  · exact distinct_fieldsOver hFields
      (distinct_table_single _ (distinct_nest (distinct_valueOf _) _))
  · exact hFields

end Variables

end SymbolMap.Settings
