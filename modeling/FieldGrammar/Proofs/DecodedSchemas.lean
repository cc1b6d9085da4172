import Mathlib
import FieldGrammar.Proofs.Grids
import FieldGrammar.Proofs.MetaSchemas
import FieldGrammar.Proofs.NormalDescription
import FieldGrammar.Proofs.PackedRoundTrip
import FieldGrammar.Proofs.Recognition
import FieldGrammar.Proofs.Rewriting

/-!
# Decoded schemas can be encoded again

Whatever token a schema was decoded from, the schema is encodable.  The token's description was
read against the meta-schema, so it can be written again, and that is what bounds the attributes,
the lengths and the depth of the schema.  Its strings are entries of the token's table with
indices that fit, so however long that table is, the table of the schema is no longer than the
limits.

The same description is its own normal form, because the meta-schema is faithful: none of its fields
is optional, no field of a kind is called like the discriminator, and its grids give their step
numbers back.  A decoded schema therefore has the form that decoding gives, and the new token is
decoded to it.

## Main statements

* `MetaSchema.normalData_of_unpackData_fields` — a description that was read is in normal form
* `encodable_of_decodePacked` — a decoded schema is encodable
* `exists_encodePacked_of_decodePacked` — and is decoded from its own token
-/

namespace FieldGrammar

/-! ## Descriptions that were read -/

namespace MetaSchema

open Packing

variable {scope : List Node}

/-- The bounds of fixed-point attributes are within the numbers whose steps come back. -/
theorem faithful_of_limits {name : String} {low high : Float}
    (hlow : -10 ^ 13 ≤ (grid.stepsOf low).toInt) (hhigh : (grid.stepsOf high).toInt ≤ 10 ^ 13)
    (hle : grid.stepsOf low ≤ grid.stepsOf high) :
    (Node.fixed name low high resolution).Faithful scope := by
  refine ⟨hle, fun k hk hk' => ?_⟩
  rw [Int64.le_iff_toInt_le] at hk hk'
  have hbound : |k.toInt| ≤ 10 ^ 13 := abs_le.2 ⟨hlow.trans hk, hk'.trans hhigh⟩
  exact ⟨Grid.isFinite_valueOf_resolution hbound, Grid.stepsOf_valueOf_resolution hbound⟩

/-- No field of a kind is called like the discriminator of its union. -/
theorem faithful_nodeUnion (levels : Nat) (name : String) :
    (nodeUnion levels name).Faithful scope := by
  rw [nodeUnion_eq, unionOver, Node.Faithful, List.forall_mem_map]
  exact fun kind _ => kindName_notMem_names levels kind

theorem pervasive_faithful : Pervasive (Node.Faithful scope) where
  int _ _ _ _ := trivial
  fixedBound _ := faithful_of_limits (by decide +kernel) (by decide +kernel) (by decide +kernel)
  precision := faithful_of_limits (by decide +kernel) (by decide +kernel) (by decide +kernel)
  array _ _ _ _ _ := trivial
  object _ _ _ := trivial
  union := faithful_nodeUnion

/-- **The meta-schema is faithful.**  It has no optional fields, none of its variants hides the
discriminator, and its grids tell steps apart; so a description is written as it was read. -/
theorem faithful_fields (depth : Nat) :
    ∀ m ∈ Node.walkList (fields depth), m.Faithful scope :=
  fun _ hm => pervasive_faithful.of_mem_fields hm

/-- **A description that was read can be written again, and is its own normal form.**  This is the
round trip of data, applied to the meta-schema. -/
theorem normalData_of_unpackData_fields {depth : Nat} {bytes : List UInt8}
    {options : CodecOptions} {data : Value}
    (h : unpackData (fields depth) bytes options = .ok data) :
    (∃ bits, writeData (fields depth) data options.pointerDepth = .ok bits) ∧
      normalData (fields depth) data options = data := by
  obtain ⟨hnames, hvalid⟩ := Schema.validate_eq_ok_iff.1 (validate_fields "" depth)
  exact normalData_of_unpackData hnames hvalid (faithful_fields depth) h

end MetaSchema

/-! ## Decoded schemas -/

open Packing

variable {options : CodecOptions} {token : String} {s : Schema}

/-- A token is decoded when each of the stages succeeds. -/
theorem decodePacked_eq_ok_iff : decodePacked token options = .ok s ↔
    options.maxDepth ≤ 7 ∧ ∃ bytes data, Base64Url.decode token = .ok bytes ∧
      unpackData (MetaSchema.fields options.maxDepth) bytes options = .ok data ∧
      Rebuild.schema data = .ok s ∧ s.validate = .ok () ∧ s.resolvePointers = .ok () := by
  simp only [decodePacked, bind_eq_ok_iff, MetaSchema.ofDepth_eq_ok_iff, decodeData,
    mapError_eq_ok_iff]
  constructor
  · rintro ⟨layout, ⟨hsupported, rfl⟩, data, ⟨bytes, hbytes, hdata⟩, schema, hschema, ⟨⟩, hvalid,
      ⟨⟩, hresolve, h⟩
    cases h
    exact ⟨hsupported, bytes, data, hbytes, hdata, hschema, hvalid, hresolve⟩
  · rintro ⟨hsupported, bytes, data, hbytes, hdata, hschema, hvalid, hresolve⟩
    exact ⟨_, ⟨hsupported, rfl⟩, data, ⟨bytes, hbytes, hdata⟩, s, hschema, (), hvalid, (), hresolve,
      rfl⟩

/-! ### Strings -/

namespace StringTable

variable {table : StringTable} {strings : List String}

/-- A table has at most one entry more than octets. -/
theorem length_entries_le (hne : table.entries ≠ []) :
    table.entries.length ≤ table.toBytes.length + 1 := by
  rw [toBytes, length_encode_join hne]
  omega

/-- Entries with indices below a bound are no more than the bound. -/
theorem card_le_of_idxOf_lt {bound : Nat}
    (h : ∀ s ∈ strings, s ∈ table.entries ∧ table.entries.idxOf s < bound) :
    strings.toFinset.card ≤ bound := by
  have hsubset : strings.toFinset ⊆ (table.entries.take bound).toFinset := by
    intro s hs
    obtain ⟨hmem, hlt⟩ := h s (List.mem_toFinset.1 hs)
    exact List.mem_toFinset.2 ((List.mem_take_iff_idxOf_lt hmem).2 hlt)
  calc strings.toFinset.card ≤ (table.entries.take bound).toFinset.card :=
        Finset.card_le_card hsubset
    _ ≤ (table.entries.take bound).length := List.toFinset_card_le _
    _ ≤ bound := List.length_take_le _ _

/-- Some of the entries of a table take no more octets than the table. -/
theorem octets_le_of_mem (hne : table.entries ≠ []) (hnodup : table.entries.Nodup)
    (h : ∀ s ∈ strings, s ∈ table.entries) :
    ∑ s ∈ strings.toFinset, octets s + (strings.toFinset.card - 1) ≤ table.toBytes.length := by
  have hsubset : strings.toFinset ⊆ table.entries.toFinset := fun s hs =>
    List.mem_toFinset.2 (h s (List.mem_toFinset.1 hs))
  rw [length_toBytes hne hnodup]
  exact Nat.add_le_add (Finset.sum_le_sum_of_subset hsubset)
    (Nat.sub_le_sub_right (Finset.card_le_card hsubset) 1)

end StringTable

/-! ### Nodes -/

/-- The attributes of a valid node that comes back unchanged are on the grid of tokens: a number
that a grid gives back is the number at its step. -/
theorem Node.onGrid_of_restored_eq {node : Node} (hvalid : node.Valid)
    (h : node.restored = node) : node.OnGrid := by
  cases node with
  | fixed name min max precision =>
      obtain ⟨⟨hmin, hmax, hprecision⟩, -⟩ := valid_fixed_iff.1 hvalid
      rw [restored, fixed.injEq] at h
      obtain ⟨-, hmin', hmax', hprecision'⟩ := h
      refine ⟨?_, ?_, ?_⟩
      · rw [Grid.Reproduces, ← MetaSchema.restore, hmin']
        exact Binary64.beq_self (Binary64.isNaN_of_isFinite hmin)
      · rw [Grid.Reproduces, ← MetaSchema.restore, hmax']
        exact Binary64.beq_self (Binary64.isNaN_of_isFinite hmax)
      · rw [Grid.Reproduces, ← MetaSchema.restore, hprecision']
        exact Binary64.beq_self (Binary64.isNaN_of_isFinite hprecision)
  | bool | int | enumeration | optional | array | enumArray | object | union | pointer =>
      exact trivial

theorem onGrid_of_map_restored_eq {fields : List Node} (hvalid : ∀ field ∈ fields, field.Valid)
    (h : fields.map Node.restored = fields) : ∀ m ∈ Node.walkList fields, m.OnGrid := by
  have hwalk : (Node.walkList fields).map Node.restored = (Node.walkList fields).map id := by
    rw [← Node.inPlace_restored.walkList_map, h, List.map_id]
  intro m hm
  obtain ⟨field, hfield, hmem⟩ := Node.mem_walkList.1 hm
  exact Node.onGrid_of_restored_eq ((hvalid field hfield).of_mem_walk hmem)
    (List.map_inj_left.1 hwalk m hm)

/-! ### Descriptions -/

section

variable {table : StringTable} {data : Value}

/-- A description that can be written is within the limits.  The limits were derived from what can
be written, and here this is used in the other direction. -/
theorem fits_of_writeData {fields : List Node} (hmax : 1 ≤ options.maxDepth)
    (hvalid : ∀ field ∈ fields, field.Valid)
    (h : ∃ bits, writeData (MetaSchema.fields options.maxDepth) (Describe.ofSchema table fields)
      options.pointerDepth = .ok bits) :
    table.toBytes.length ≤ 65535 ∧ fields.length ≤ 255 ∧
      (∀ field ∈ fields, field.depth ≤ options.maxDepth) ∧
      ∀ m ∈ Node.walkList fields,
        MetaSchema.Fits (fun s => Int64.ofInt (table.entries.idxOf s)) m := by
  obtain ⟨hoctets, hlength, hfields⟩ := MetaSchema.exists_writeData_iff.1 h
  have hfits := fun field hfield =>
    (MetaSchema.writtenWhereFits (hvalid field hfield) _ _).1 (hfields field hfield)
  refine ⟨hoctets, hlength, fun field hfield => ?_, fun m hm => ?_⟩
  · have hdepth := (hfits field hfield).1
    omega
  · obtain ⟨field, hfield, hm⟩ := Node.mem_walkList.1 hm
    exact (hfits field hfield).2 m hm

/-- A schema whose description is its own normal form comes back unchanged, since it is determined
by its description. -/
theorem restored_of_normalData (hdescribes : Rebuild.DescribesSchema table data s)
    (hvalid : ∀ field ∈ s.fields, field.Valid) (hlength : table.entries.length ≤ 65536)
    (hdepth : ∀ field ∈ s.fields, field.depth ≤ options.maxDepth)
    (hnormal : normalData (MetaSchema.fields options.maxDepth) data options = data) :
    s.fields.map Node.restored = s.fields := by
  rw [hdescribes.eq, MetaSchema.normalData_ofSchema hdepth] at hnormal
  have hlists : (s.fields.map Node.restored).map (Describe.ofNode table.indexValue) =
      s.fields.map (Describe.ofNode table.indexValue) := by
    rw [Describe.ofSchema, Describe.ofSchema] at hnormal
    simpa using hnormal
  have hrestored := Rebuild.nodes_map fun field hfield =>
    Rebuild.rebuilds (hvalid field hfield) fun m hm entry hentry =>
      Rebuild.finds_idxOf (hdescribes.strings m
        (Node.mem_walkList.2 ⟨field, hfield, hm⟩) entry hentry) hlength
  have hrebuilt := hdescribes.rebuilt
  rw [← hlists] at hrebuilt
  exact Except.ok.inj (hrestored.symm.trans hrebuilt)

/-- The strings of a description that can be written have indices below 4096.  A table that was read
may hold more entries than are used, so this is about the strings of the schema alone. -/
theorem idxOf_lt_of_fits (hdescribes : Rebuild.DescribesSchema table data s)
    (hlength : table.entries.length ≤ 65536)
    (hfits : ∀ m ∈ Node.walkList s.fields,
      MetaSchema.Fits (fun s => Int64.ofInt (table.entries.idxOf s)) m) :
    ∀ entry ∈ schemaStrings s.name s.fields,
      entry ∈ table.entries ∧ table.entries.idxOf entry < 4096 := by
  have hname : s.name ∈ table.entries ∧ table.entries.idxOf s.name = 0 := by
    have hentry := hdescribes.name
    rw [StringTable.entry] at hentry
    split at hentry
    · next found hfound =>
      obtain ⟨hlt, heq⟩ := List.getElem?_eq_some_iff.1 hfound
      rw [← Except.ok.inj hentry, ← heq]
      exact ⟨List.getElem_mem hlt, hdescribes.nodup.idxOf_getElem 0 hlt⟩
    · cases hentry
  rw [schemaStrings, List.forall_mem_cons]
  refine ⟨⟨hname.1, by omega⟩, fun entry hentry => ?_⟩
  obtain ⟨m, hm, hown⟩ := List.mem_flatMap.1 hentry
  have hmem := hdescribes.strings m hm entry hown
  have hlt := List.idxOf_lt_length_of_mem hmem
  have hle := ((hfits m hm).2 entry hown).2
  have hcast : (Int64.ofInt (table.entries.idxOf entry)).toInt = table.entries.idxOf entry :=
    Int64.toInt_ofInt_of_le (by omega) (by omega)
  rw [Int64.le_iff_toInt_le, hcast, show (4095 : Int64).toInt = 4095 from rfl] at hle
  exact ⟨hmem, by omega⟩

end

/-! ### Decoded schemas -/

/-- **A decoded schema is encodable**, and coming back from a token leaves it as it is.  The limits
have been met by the token that it was read from. -/
theorem encodable_of_decodePacked (hmax : 1 ≤ options.maxDepth)
    (h : decodePacked token options = .ok s) :
    Encodable s.name s.fields options ∧ s.fields.map Node.restored = s.fields := by
  obtain ⟨hsupported, bytes, data, -, hdata, hschema, hvalid, -⟩ := decodePacked_eq_ok_iff.1 h
  obtain ⟨-, hfields⟩ := Schema.validate_eq_ok_iff.1 hvalid
  obtain ⟨hwritten, hnormal⟩ := MetaSchema.normalData_of_unpackData_fields hdata
  obtain ⟨table, hdescribes⟩ := Rebuild.exists_describesSchema hdata hschema hfields
  rw [hdescribes.eq] at hwritten
  obtain ⟨hoctets, hlength, hdepth, hfits⟩ := fits_of_writeData hmax hfields hwritten
  have hne : table.entries ≠ [] := by
    intro hnil
    have hentry := hdescribes.name
    rw [StringTable.entry, hnil] at hentry
    cases hentry
  have hentries : table.entries.length ≤ 65536 :=
    (StringTable.length_entries_le hne).trans (Nat.succ_le_succ hoctets)
  have hindices := idxOf_lt_of_fits hdescribes hentries hfits
  have hrestored := restored_of_normalData hdescribes hfields hentries hdepth hnormal
  refine ⟨?_, hrestored⟩
  exact
    { valid := hvalid
      supported := hsupported
      depth := hdepth
      separator := fun entry hentry => hdescribes.separator entry (hindices entry hentry).1
      strings := StringTable.card_le_of_idxOf_lt hindices
      octets := (StringTable.octets_le_of_mem hne hdescribes.nodup fun entry hentry =>
        (hindices entry hentry).1).trans hoctets
      length := hlength
      limits := fun m hm => (hfits m hm).1
      onGrid := onGrid_of_map_restored_eq hfields hrestored }

/-- **A decoded schema can be encoded again**, however its token was made, and the new token is
decoded to the same schema.  The two tokens may differ: the first one may hold strings that no node
uses, and in another order. -/
theorem exists_encodePacked_of_decodePacked (hmax : 1 ≤ options.maxDepth)
    (h : decodePacked token options = .ok s) :
    ∃ again, encodePacked s.name s.fields options = .ok again ∧
      decodePacked again options = .ok s ∧ Schema.same s s = true := by
  obtain ⟨hencodable, hrestored⟩ := encodable_of_decodePacked hmax h
  obtain ⟨-, -, -, -, -, -, hvalid, hresolve⟩ := decodePacked_eq_ok_iff.1 h
  obtain ⟨again, hagain⟩ := hencodable.exists_token
  have hdecode := decodePacked_of_encodePacked hagain
  rw [hresolve, ok_bind, hrestored] at hdecode
  have hsame := @same_restored_schema s.name s.fields (Schema.validate_eq_ok_iff.1 hvalid).2
    hencodable.onGrid
  rw [hrestored] at hsame
  exact ⟨again, hagain, hdecode, hsame⟩

/-- A token whose table has an entry that the schema does not use. -/
theorem exists_encodePacked_of_decodePacked_spareEntry :
    ∃ s again, decodePacked "AQFABJGE5yoABIwnOWOIAAACcOABLaPt7o0MrkPvAA" { maxDepth := 1 } = .ok s ∧
      Schema.same s ⟨"m", [.fixed "x" 0.0 1.0 0.5]⟩ = true ∧
      encodePacked s.name s.fields { maxDepth := 1 } = .ok again ∧
      decodePacked again { maxDepth := 1 } = .ok s := by
  obtain ⟨s, hdecode, hsame⟩ := exists_eq_ok_of_toOption
    (show (decodePacked "AQFABJGE5yoABIwnOWOIAAACcOABLaPt7o0MrkPvAA" { maxDepth := 1 }).toOption.any
      (fun s => s.same ⟨"m", [.fixed "x" 0.0 1.0 0.5]⟩) = true by decide +kernel)
  obtain ⟨again, hagain, hdecode', -⟩ :=
    exists_encodePacked_of_decodePacked (by decide) hdecode
  exact ⟨s, again, hdecode, hsame, hagain, hdecode'⟩

end FieldGrammar
