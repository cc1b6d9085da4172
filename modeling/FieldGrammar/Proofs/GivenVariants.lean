import Mathlib
import FieldGrammar.Node.Build
import FieldGrammar.Proofs.Trees

/-!
# Building unions

The variants of a union are given as pairs of an option and a list of fields, in any order.  They
are first collected in a map, where later fields replace those given before for the same option.
A second map is then filled in the order of the options, each of which takes its variant out of
the first map.

What comes out depends on the pairs of each name only: every option ends up with the fields that
were given for it last.  Taking a variant out cannot disturb the options behind it, because the
options of an accepted discriminator are distinct, and nothing is left over, because a name that
is no option has been refused before.

## Main definitions

* `Entries.last?` — the contents that a list of pairs gives last for a name
* `Entries.SameByName` — lists of pairs that differ in how pairs of different names are mixed

## Main statements

* `Entries.get?_ofList` — a map finds what was given last
* `Node.takeVariants_eq` — taking variants out one by one is looking all of them up
* `Node.Build.union_eq_ok_iff` — which unions are built, and from what
* `Node.Build.union_normalizes` — the order of the pairs of different names does not matter
-/

namespace FieldGrammar

namespace Entries

variable {α : Type}

/-! ### What is given last -/

/-- The contents that a list of pairs gives last for a name.  It is how pairs are collected in a
map, without the map. -/
def last? (pairs : List (String × α)) (key : String) : Option α :=
  ((pairs.filter fun pair => pair.1 = key).getLast?).map Prod.snd

/-- The last pair decides for its name and for no other.  Lists of pairs are taken apart from the
end below, since that is where the deciding pair is. -/
theorem last?_concat (pairs : List (String × α)) (key : String) (value : α) (other : String) :
    last? (pairs ++ [(key, value)]) other =
      if key = other then some value else last? pairs other := by
  rw [last?, List.filter_append]
  split
  · next h => rw [List.filter_cons_of_pos (by simpa using h)]; simp
  · next h => rw [List.filter_cons_of_neg (by simpa using h)]; simp [last?]

theorem mem_of_last?_eq_some {pairs : List (String × α)} {key : String} {value : α}
    (h : last? pairs key = some value) : (key, value) ∈ pairs := by
  obtain ⟨pair, hlast, rfl⟩ := Option.map_eq_some_iff.1 h
  obtain ⟨hmem, hkey⟩ := List.mem_filter.1 (List.mem_of_getLast? hlast)
  obtain rfl : pair.1 = key := of_decide_eq_true hkey
  exact hmem

/-- A member of what is given last for a name has been given. -/
theorem exists_mem_of_mem_last? {pairs : List (String × List α)} {key : String} {item : α}
    (h : item ∈ (last? pairs key).getD []) : ∃ pair ∈ pairs, item ∈ pair.2 := by
  cases hlast : last? pairs key with
  | none =>
      rw [hlast] at h
      cases h
  | some items =>
      rw [hlast] at h
      exact ⟨_, mem_of_last?_eq_some hlast, h⟩

/-- **A map finds what was given last.**  The induction is on the list from its end, where the last
pair is set last. -/
theorem get?_ofList (pairs : List (String × α)) (key : String) :
    get? (ofList pairs) key = last? pairs key := by
  induction pairs using List.reverseRecOn with
  | nil => rfl
  | append_singleton pairs pair ih =>
      obtain ⟨k, value⟩ := pair
      rw [ofList_concat, last?_concat]
      split
      · next h => rw [h, get?_insert_self]
      · next h => rw [get?_insert_of_ne _ _ h, ih]

/-! ### The order of pairs -/

/-- The pairs of every name are the same, in the same order: the lists differ at most in how the
pairs of different names are mixed. -/
def SameByName (pairs pairs' : List (String × α)) : Prop :=
  ∀ key, (pairs.filter fun pair => pair.1 = key) = pairs'.filter fun pair => pair.1 = key

/-- Neighbours of different names change places. -/
theorem sameByName_swap {pair other : String × α} (h : pair.1 ≠ other.1)
    (front back : List (String × α)) :
    SameByName (front ++ pair :: other :: back) (front ++ other :: pair :: back) := by
  intro key
  rw [List.filter_append, List.filter_append]
  congr 1
  by_cases hpair : pair.1 = key
  · have hother : other.1 ≠ key := fun heq => h (hpair.trans heq.symm)
    simp [hpair, hother]
  · simp [List.filter_cons, hpair]

theorem SameByName.symm {pairs pairs' : List (String × α)} (h : SameByName pairs pairs') :
    SameByName pairs' pairs :=
  fun key => (h key).symm

/-- What is given last for a name depends on the pairs of the name alone. -/
theorem SameByName.last?_eq {pairs pairs' : List (String × α)} (h : SameByName pairs pairs')
    (key : String) : last? pairs key = last? pairs' key := by
  rw [last?, last?, h key]

/-- The two lists have the same pairs, possibly at other places. -/
theorem SameByName.subset {pairs pairs' : List (String × α)} (h : SameByName pairs pairs') :
    pairs ⊆ pairs' := by
  intro pair hpair
  have hmem : pair ∈ pairs.filter fun other => other.1 = pair.1 :=
    List.mem_filter.2 ⟨hpair, decide_eq_true rfl⟩
  rw [h pair.1] at hmem
  exact List.mem_of_mem_filter hmem

end Entries

namespace Node

/-- A node is made when its attributes pass. -/
theorem checked_eq_ok_iff {node node' : Node} :
    node.checked = .ok node' ↔ node.check = .ok () ∧ node' = node := by
  rw [checked, unit_bind_eq_ok_iff, pure_eq_ok, Except.ok.injEq, eq_comm (a := node)]

/-- Distinct options that take their variants out one after the other find what they would have
found at the start. -/
theorem takeVariants_eq {options : List String} (h : options.Nodup) (given : Entries (List Node)) :
    takeVariants given options =
      options.map fun option => (option, (Entries.get? given option).getD []) := by
  induction options generalizing given with
  | nil => rfl
  | cons option rest ih =>
      obtain ⟨hnew, hrest⟩ := List.nodup_cons.1 h
      rw [takeVariants, List.map_cons, ih hrest]
      refine congrArg _ (List.map_congr_left fun other hother => ?_)
      have hne : other ≠ option := fun heq => hnew (heq ▸ hother)
      rw [Entries.remove, Entries.get?_filter_ne hne]

namespace Build

variable {name : String} {discriminator : Enumeration} {pairs : List (String × List Node)}

/-- The union in which every option has the fields given for it last.  An option that nothing was
given for has no fields. -/
def unionOfLast (name : String) (discriminator : Enumeration)
    (pairs : List (String × List Node)) : Node :=
  .union name discriminator
    (discriminator.options.map fun option => (option, (Entries.last? pairs option).getD []))

/-- The first given name that is no option.  It is the name that the error of building a union
mentions. -/
def strayName? (discriminator : Enumeration) (pairs : List (String × List Node)) :
    Option String :=
  (Entries.keys (Entries.ofList pairs)).find? fun key => !discriminator.options.contains key

/-- No name is stray when all names are options. -/
theorem strayName?_eq_none_iff :
    strayName? discriminator pairs = none ↔ ∀ pair ∈ pairs, pair.1 ∈ discriminator.options := by
  have hpairs : (∀ key ∈ Entries.keys pairs, key ∈ discriminator.options) ↔
      ∀ pair ∈ pairs, pair.1 ∈ discriminator.options := List.forall_mem_map
  rw [strayName?, List.find?_eq_none, ← hpairs]
  refine forall_congr' fun key => ?_
  rw [Entries.mem_keys_ofList]
  simp

/-- The stray name that is reported is given and is no option. -/
theorem of_strayName?_eq_some {key : String} (h : strayName? discriminator pairs = some key) :
    (∃ pair ∈ pairs, pair.1 = key) ∧ key ∉ discriminator.options := by
  have hstray := List.find?_some h
  have hkey := Entries.mem_keys_ofList.1 (List.mem_of_find?_eq_some h)
  exact ⟨List.mem_map.1 hkey, by simpa using hstray⟩

/-- Behind an accepted discriminator, a name that is no option is refused, and without one the
union of what was given last is checked. -/
theorem union_of_validate (name : String) (pairs : List (String × List Node))
    (h : discriminator.validate = .ok ()) :
    Build.union name discriminator pairs =
      match strayName? discriminator pairs with
      | some key => .error (.construction name (.strayVariant key))
      | none => checked (unionOfLast name discriminator pairs) := by
  have hnodup := (Enumeration.validate_eq_ok_iff.1 h).2
  have htaken : Entries.ofList (takeVariants (Entries.ofList pairs) discriminator.options) =
      discriminator.options.map fun option => (option, (Entries.last? pairs option).getD []) := by
    rw [takeVariants_eq hnodup, Entries.ofList_of_nodup]
    · simp only [Entries.get?_ofList]
    · simpa [Entries.keys, Function.comp_def] using hnodup
  rw [Build.union, h, ok_bind, strayName?, Entries.keys, List.find?_map]
  dsimp only [Function.comp_def]
  rw [htaken]
  cases (Entries.ofList pairs).find? fun pair => !discriminator.options.contains pair.1 <;> rfl

/-- The union of what was given last has variants for exactly its options, so only the
discriminator and the names in the variants can be refused. -/
theorem check_unionOfLast_eq_ok_iff (name : String)
    (hkeys : ∀ pair ∈ pairs, pair.1 ∈ discriminator.options)
    (h : discriminator.validate = .ok ()) :
    (unionOfLast name discriminator pairs).check = .ok () ↔
      ∀ key fields, Entries.last? pairs key = some fields → (fields.map Node.name).Nodup := by
  have hoptions := Enumeration.validate_eq_ok_iff.1 h
  rw [unionOfLast, check_union_eq_ok_iff, and_iff_right hoptions]
  have hperm : (Entries.keys (discriminator.options.map fun option =>
      (option, (Entries.last? pairs option).getD []))).Perm discriminator.options := by
    simp [Entries.keys, Function.comp_def]
  rw [and_iff_right hperm, List.forall_mem_map]
  constructor
  · intro hnames key fields hlast
    have hoption := hnames key (hkeys _ (Entries.mem_of_last?_eq_some hlast))
    rwa [hlast] at hoption
  · intro hnames option _
    cases hlast : Entries.last? pairs option with
    | none => exact List.nodup_nil
    | some fields => exact hnames option fields hlast

/-- The fields of the union of what was given last have been given. -/
theorem exists_pair_of_mem_unionOfLast {child : Node}
    (h : child ∈ (unionOfLast name discriminator pairs).contents) :
    ∃ pair ∈ pairs, child ∈ pair.2 := by
  obtain ⟨variant, hvariant, hchild⟩ := List.mem_flatMap.1 h
  obtain ⟨option, -, rfl⟩ := List.mem_map.1 hvariant
  exact Entries.exists_mem_of_mem_last? hchild

/-- **Which unions are built, and from what.**  The conditions are those of the building function,
one by one, and the union is given without reference to either of its maps. -/
theorem union_eq_ok_iff {node : Node} :
    Build.union name discriminator pairs = .ok node ↔
      discriminator.validate = .ok () ∧ (∀ pair ∈ pairs, pair.1 ∈ discriminator.options) ∧
        (∀ key fields, Entries.last? pairs key = some fields → (fields.map Node.name).Nodup) ∧
          node = unionOfLast name discriminator pairs := by
  cases hvalid : discriminator.validate with
  | error e => simp [Build.union, hvalid]
  | ok =>
      rw [union_of_validate name pairs hvalid, and_iff_right rfl]
      cases hstray : strayName? discriminator pairs with
      | some key =>
          obtain ⟨⟨pair, hpair, rfl⟩, hkey⟩ := of_strayName?_eq_some hstray
          simp only [reduceCtorEq, false_iff]
          exact fun h => hkey (h.1 pair hpair)
      | none =>
          have hkeys := strayName?_eq_none_iff.1 hstray
          dsimp only
          rw [checked_eq_ok_iff, and_iff_right hkeys, check_unionOfLast_eq_ok_iff name hkeys hvalid]

/-- The same pairs for every name make the same union. -/
theorem unionOfLast_congr {pairs' : List (String × List Node)}
    (h : Entries.SameByName pairs pairs') :
    unionOfLast name discriminator pairs = unionOfLast name discriminator pairs' := by
  simp only [unionOfLast, h.last?_eq]

/-- If at most one name is no option, it is the one that is refused, wherever it was given.  With
two of them, the error depends on which one comes first. -/
theorem strayName?_congr {pairs' : List (String × List Node)}
    (h : Entries.SameByName pairs pairs')
    (hone : ∀ pair ∈ pairs, ∀ other ∈ pairs, pair.1 ∉ discriminator.options →
      other.1 ∉ discriminator.options → pair.1 = other.1) :
    strayName? discriminator pairs = strayName? discriminator pairs' := by
  cases hstray : strayName? discriminator pairs with
  | none =>
      rw [eq_comm, strayName?_eq_none_iff]
      exact fun pair hpair => strayName?_eq_none_iff.1 hstray pair (h.symm.subset hpair)
  | some key =>
      obtain ⟨⟨pair, hpair, rfl⟩, hkey⟩ := of_strayName?_eq_some hstray
      cases hstray' : strayName? discriminator pairs' with
      | none => exact absurd (strayName?_eq_none_iff.1 hstray' pair (h.subset hpair)) hkey
      | some key' =>
          obtain ⟨⟨other, hother, rfl⟩, hkey'⟩ := of_strayName?_eq_some hstray'
          rw [hone pair hpair other (h.symm.subset hother) hkey hkey']

/-- **Building a union normalizes its variants.**  It succeeds exactly when the discriminator is
accepted, every name is an option and the fields given last for each name have distinct names.  The
variants then are those of the options, in the order of the options, each with the fields given for
it last or none.  Pairs of different names may therefore be given in any order: the same unions are
built.  Only the error may depend on that order, and only if several names are no options, since it
shows the first of them. -/
theorem union_normalizes (name : String) (discriminator : Enumeration)
    (pairs : List (String × List Node)) :
    (∀ node, Build.union name discriminator pairs = .ok node ↔
      discriminator.validate = .ok () ∧ (∀ pair ∈ pairs, pair.1 ∈ discriminator.options) ∧
        (∀ key fields, Entries.last? pairs key = some fields → (fields.map Node.name).Nodup) ∧
          node = .union name discriminator (discriminator.options.map fun option =>
            (option, (Entries.last? pairs option).getD []))) ∧
    ∀ pairs', Entries.SameByName pairs pairs' →
      (∀ node, Build.union name discriminator pairs = .ok node ↔
        Build.union name discriminator pairs' = .ok node) ∧
      ((∀ pair ∈ pairs, ∀ other ∈ pairs, pair.1 ∉ discriminator.options →
          other.1 ∉ discriminator.options → pair.1 = other.1) →
        Build.union name discriminator pairs = Build.union name discriminator pairs') := by
  refine ⟨fun node => union_eq_ok_iff, fun pairs' h => ⟨fun node => ?_, fun hone => ?_⟩⟩
  · have hkeys : (∀ pair ∈ pairs, pair.1 ∈ discriminator.options) ↔
        ∀ pair ∈ pairs', pair.1 ∈ discriminator.options :=
      ⟨fun hall pair hpair => hall pair (h.symm.subset hpair),
        fun hall pair hpair => hall pair (h.subset hpair)⟩
    rw [union_eq_ok_iff, union_eq_ok_iff, hkeys, unionOfLast_congr h]
    simp only [h.last?_eq]
  · cases hvalid : discriminator.validate with
    | error e => rw [Build.union, Build.union, hvalid, error_bind, error_bind]
    | ok =>
        rw [union_of_validate name pairs hvalid, union_of_validate name pairs' hvalid,
          strayName?_congr h hone, unionOfLast_congr h]

/-- A variant given twice, one not given at all, and two pairs of different names that change
places. -/
theorem union_normalizes_swapped :
    (Build.union "action" ⟨"type", ["start", "stop", "pause"]⟩
        [("stop", [.bool "now"]), ("start", [.bool "delayed"]), ("stop", [.bool "forced"])] =
      .ok (.union "action" ⟨"type", ["start", "stop", "pause"]⟩
        [("start", [.bool "delayed"]), ("stop", [.bool "forced"]), ("pause", [])])) ∧
    Build.union "action" ⟨"type", ["start", "stop", "pause"]⟩
        [("stop", [.bool "now"]), ("start", [.bool "delayed"]), ("stop", [.bool "forced"])] =
      Build.union "action" ⟨"type", ["start", "stop", "pause"]⟩
        [("start", [.bool "delayed"]), ("stop", [.bool "now"]), ("stop", [.bool "forced"])] := by
  have hnormal := union_normalizes "action" ⟨"type", ["start", "stop", "pause"]⟩
    [("stop", [.bool "now"]), ("start", [.bool "delayed"]), ("stop", [.bool "forced"])]
  have hnames : ∀ pair ∈ [("stop", [Node.bool "now"]), ("start", [.bool "delayed"]),
      ("stop", [.bool "forced"])], (pair.2.map Node.name).Nodup := by decide
  refine ⟨(hnormal.1 _).2 ⟨Enumeration.validate_eq_ok_iff.2 (by decide), by decide,
    fun key fields hlast => hnames _ (Entries.mem_of_last?_eq_some hlast), rfl⟩, ?_⟩
  have hne : ("stop", [Node.bool "now"]).1 ≠ ("start", [Node.bool "delayed"]).1 := by decide
  have hswap := Entries.sameByName_swap hne [] [("stop", [Node.bool "forced"])]
  exact (hnormal.2 _ hswap).2 (by decide)

end Build

end Node

end FieldGrammar
