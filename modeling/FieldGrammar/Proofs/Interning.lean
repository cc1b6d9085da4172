import Mathlib
import FieldGrammar.Proofs.Results
import FieldGrammar.Proofs.StringTables
import FieldGrammar.SchemaToken.Describe

/-!
# Computations that intern strings

The string table is only complete when the last string has been interned, but indices are given
out all along.  They stay valid as the table grows, so a computation that interns strings may be
described as if it had the final table from the start: it interns a list of strings, passes some
checks, and returns a value of the indices in the final table (`Describe.Interns`).  Described
this way, computations compose.

## Main statements

* `Describe.Interns.bind`, `Describe.Interns.mapM` — one computation after the other
* `Describe.interns_index` — one string
-/

namespace FieldGrammar

namespace StringTable

/-- The index of a string in a table, as a value. -/
def indexValue (table : StringTable) (s : String) : Value :=
  .int (Int64.ofInt (table.entries.idxOf s))

/-- Indices stay valid, as values of a description. -/
theorem indexValue_addAll {table : StringTable} {s : String} (h : s ∈ table.entries)
    (strings : List String) : (table.addAll strings).indexValue s = table.indexValue s := by
  rw [indexValue, idxOf_addAll h, indexValue]

/-- Every string of the list can be interned: it is in the table already, or it is free of the
separator. -/
def Admits (table : StringTable) (strings : List String) : Prop :=
  ∀ s ∈ strings, s ∈ table.entries ∨ separator ∉ s.toList

/-- Strings can be interned in two parts if the first part can, and the second one behind it. -/
theorem admits_append {table : StringTable} {xs ys : List String} :
    table.Admits (xs ++ ys) ↔ table.Admits xs ∧ (table.addAll xs).Admits ys := by
  rw [Admits, List.forall_mem_append]
  refine and_congr_right fun hxs => forall₂_congr fun s _ => ?_
  rw [mem_addAll]
  constructor
  · rintro (h | h)
    · exact .inl (.inl h)
    · exact .inr h
  · rintro ((h | h) | h)
    · exact .inl h
    · exact hxs s h
    · exact .inr h

/-- In the empty table there is nothing yet, so all strings are new and have to be free of the
separator. -/
theorem admits_empty {strings : List String} :
    empty.Admits strings ↔ ∀ s ∈ strings, separator ∉ s.toList := by
  simp [Admits, empty]

end StringTable

namespace Describe

/-- The computation interns `strings` and succeeds if these can be interned and `passes` holds.
Its result is a function of the indices that the strings have in the final table. -/
structure Interns {α : Type} (m : Interning α) (strings : List String) (passes : Prop)
    (value : (String → Value) → α) : Prop where
  run_eq_ok_iff : ∀ (table after : StringTable) (a : α),
    m.run table = .ok (a, after) ↔
      table.Admits strings ∧ passes ∧ after = table.addAll strings ∧ a = value after.indexValue
  congr : ∀ f g : String → Value, (∀ s ∈ strings, f s = g s) → value f = value g

namespace Interns

variable {α β : Type}

theorem pure (a : α) : Interns (Pure.pure a) [] True fun _ => a := by
  refine ⟨fun table after b => ?_, fun _ _ _ => rfl⟩
  rw [StateT.run_pure]
  simp [StringTable.Admits, eq_comm, and_comm]

/-- A check that does not look at the table. -/
theorem lift {x : Except Error α} {passes : Prop} {a : α}
    (h : ∀ b, x = .ok b ↔ passes ∧ b = a) :
    Interns (liftM x) [] passes fun _ => a := by
  refine ⟨fun table after b => ?_, fun _ _ _ => rfl⟩
  have hrun : (liftM x : Interning α).run table = x >>= fun b => .ok (b, table) := rfl
  rw [hrun, bind_eq_ok_iff]
  simp only [h, Except.ok.injEq, Prod.mk.injEq]
  constructor
  · rintro ⟨c, ⟨hpasses, rfl⟩, rfl, rfl⟩
    exact ⟨by simp [StringTable.Admits], hpasses, rfl, rfl⟩
  · rintro ⟨-, hpasses, rfl, rfl⟩
    exact ⟨_, ⟨hpasses, rfl⟩, rfl, rfl⟩

/-- **One computation after the other.**  The first one returned indices in a smaller table,
which are the indices in the final one. -/
theorem bind {m : Interning α} {k : α → Interning β} {xs ys : List String} {p q : Prop}
    {v : (String → Value) → α} {w : α → (String → Value) → β} (hm : Interns m xs p v)
    (hk : ∀ a, Interns (k a) ys q (w a)) :
    Interns (m >>= k) (xs ++ ys) (p ∧ q) fun f => w (v f) f := by
  have hstable : ∀ table : StringTable,
      v (table.addAll xs).indexValue = v ((table.addAll xs).addAll ys).indexValue := by
    intro table
    refine hm.congr _ _ fun s hs => ?_
    exact (StringTable.indexValue_addAll (StringTable.mem_addAll.2 (.inr hs)) ys).symm
  constructor
  · intro table after b
    rw [StateT.run_bind, bind_eq_ok_iff, StringTable.admits_append, StringTable.addAll_append]
    constructor
    · rintro ⟨⟨a, middle⟩, hfirst, hsecond⟩
      obtain ⟨hxs, hp, rfl, rfl⟩ := (hm.run_eq_ok_iff _ _ _).1 hfirst
      obtain ⟨hys, hq, rfl, rfl⟩ := ((hk _).run_eq_ok_iff _ _ _).1 hsecond
      exact ⟨⟨hxs, hys⟩, ⟨hp, hq⟩, rfl, by rw [hstable table]⟩
    · rintro ⟨⟨hxs, hys⟩, ⟨hp, hq⟩, rfl, rfl⟩
      refine ⟨(_, _), (hm.run_eq_ok_iff _ _ _).2 ⟨hxs, hp, rfl, rfl⟩, ?_⟩
      exact ((hk _).run_eq_ok_iff _ _ _).2 ⟨hys, hq, rfl, by rw [hstable table]⟩
  · intro f g hfg
    rw [List.forall_mem_append] at hfg
    rw [hm.congr f g hfg.1, (hk _).congr f g hfg.2]

/-- The same computation, described in other words. -/
theorem of_iff {m : Interning α} {xs ys : List String} {p q : Prop}
    {v : (String → Value) → α} (h : Interns m xs p v) (hstrings : xs = ys) (hpasses : p ↔ q) :
    Interns m ys q v := by
  rw [← hstrings, ← hpasses]
  exact h

/-- A result that is converted. -/
theorem map {m : Interning α} {xs : List String} {p : Prop} {v : (String → Value) → α}
    (hm : Interns m xs p v) (finish : α → β) :
    Interns (m >>= fun a => Pure.pure (finish a)) xs p fun f => finish (v f) :=
  (hm.bind fun a => Interns.pure (finish a)).of_iff (List.append_nil xs) (iff_of_eq (and_true p))

/-- **A traversal** interns the strings of each element, in their order. -/
theorem mapM {g : α → Interning β} {strings : α → List String} {passes : α → Prop}
    {value : α → (String → Value) → β} {xs : List α}
    (h : ∀ x ∈ xs, Interns (g x) (strings x) (passes x) (value x)) :
    Interns (xs.mapM g) (xs.flatMap strings) (∀ x ∈ xs, passes x)
      fun f => xs.map fun x => value x f := by
  induction xs with
  | nil =>
      rw [List.mapM_nil]
      exact (Interns.pure []).of_iff rfl (by simp)
  | cons x xs ih =>
      obtain ⟨hx, hxs⟩ := List.forall_mem_cons.1 h
      rw [List.mapM_cons, List.flatMap_cons, List.forall_mem_cons]
      exact hx.bind fun a => (ih hxs).map (a :: ·)

end Interns

/-- **Describing a string** is interning it.  The index that is returned is the one in the table so
far, and growing the table does not change it. -/
theorem interns_index (s : String) : Interns (index s) [s] True fun f => f s := by
  refine ⟨fun table after a => ?_, fun f g h => h s List.mem_cons_self⟩
  have hadmits : table.Admits [s] ↔
      s ∈ table.entries ∨ StringTable.separator ∉ s.toList := by
    simp [StringTable.Admits]
  have hadd : table.addAll [s] = table.add s := rfl
  rw [hadmits, hadd]
  cases hintern : table.intern s with
  | error fault =>
      have hrun : (index s).run table = .error (.stringTable fault) := by
        show index s table = _
        rw [index, hintern]
      rw [hrun]
      simp only [reduceCtorEq, false_iff]
      rintro ⟨hs, -, -, -⟩
      rw [StringTable.intern_eq_ok_iff.2 ⟨hs, rfl, rfl⟩] at hintern
      cases hintern
  | ok found =>
      obtain ⟨i, grown⟩ := found
      have hrun : (index s).run table = .ok (.int (Int64.ofInt i), grown) := by
        show index s table = _
        rw [index, hintern]
      obtain ⟨hs, rfl, rfl⟩ := StringTable.intern_eq_ok_iff.1 hintern
      rw [hrun]
      simp only [Except.ok.injEq, Prod.mk.injEq, hs, true_and]
      constructor
      · rintro ⟨rfl, rfl⟩
        exact ⟨rfl, rfl⟩
      · rintro ⟨rfl, rfl⟩
        exact ⟨rfl, rfl⟩

end Describe

end FieldGrammar
