import Mathlib.Data.List.Forall2
import Funclet.Json.Codec
import Funclet.Proofs.Json.Texts
import Funclet.Proofs.OrderedMap

/-!
# Libraries for JSON

* `Json.Overlays` : what the members of an object change in a record;
* `Json.Library.Standard` : a library writes and reads standard JSON, and keeps a record as an object with a member for
  each field, where a field that is left out is taken from the default;
* `Json.library_standard` : so it is with the library at hand.
-/

namespace Funclet.Json

section Records

variable {α : Type}

/-- The members are of different fields, and turn the record `a` into `a'`. -/
inductive Overlays (fields : List (Field α)) : List Member → α → α → Prop
  | nil {a : α} : Overlays fields [] a a
  | cons {f : Field α} {m : Member} {ms : List Member} {a b a' : α} (hf : f ∈ fields)
    (hkey : Spells m.key.toList f.key.toList) (hread : f.read m.value a = some b)
    (hfresh : ∀ m' ∈ ms, ¬Spells m'.key.toList f.key.toList) (h : Overlays fields ms b a') :
    Overlays fields (m :: ms) a a'

def Field.Shows (a : α) (f : Field α) (m : Member) : Prop :=
  Spells m.key.toList f.key.toList ∧ m.value = f.codec.encode (f.get a)

end Records

/-- The library writes and reads standard JSON. -/
structure Library.Standard (lib : Library) : Prop where
  /-- A value whose tree has a text at all is written as such a text. -/
  toText : ∀ {α : Type} (codec : Codec α) (a : α), (∃ text, Document (codec.encode a) text) →
    ∃ text, lib.toText codec a = some text ∧ Document (codec.encode a) text
  /-- All texts of a tree are read alike. -/
  ofText : ∀ {α : Type} (codec : Codec α) {j : Json} {text : String}, Document j text →
    lib.ofText codec text = codec.decode j
  encode_text : ∀ s, ∃ sp, lib.text.encode s = .string sp ∧ Spells sp.toList s.toList
  decode_text : ∀ {sp s}, Spells sp.toList s.toList → lib.text.decode (.string sp) = some s
  encode_flag : ∀ b, lib.flag.encode b = .bool b
  decode_flag : ∀ b, lib.flag.decode (.bool b) = some b
  encode_count : ∀ {n}, n ≤ maxCount → lib.count.encode n = .ofNat n
  decode_count : ∀ {n}, n ≤ maxCount → lib.count.decode (.ofNat n) = some n
  encode_record : ∀ {α : Type} (default : α) (fields : List (Field α)) (a : α),
    ∃ ms, (lib.record default fields).encode a = .object ms ∧ List.Forall₂ (Field.Shows a) fields ms
  decode_record : ∀ {α : Type} {default a : α} {fields : List (Field α)} {ms : List Member},
    (fields.map Field.key).Nodup → Overlays fields ms default a →
    (lib.record default fields).decode (.object ms) = some a

/-! ## The library at hand -/

theorem count?_ofNat {n : Nat} (hn : n ≤ maxCount) : count? (ofNat n) = some n := by
  have hdigits : (Nat.toDigits 10 n).all Char.isDigit = true :=
    List.all_eq_true.2 fun _ => Nat.isDigit_of_mem_toDigits (by decide) (by decide)
  have htext : (toString n).toList = Nat.toDigits 10 n := by
    rw [Nat.toString_eq_ofList_toDigits, String.toList_ofList]
  unfold count? ofNat
  dsimp only
  rw [htext, hdigits, Nat.ofDigitChars_ten_toDigits]
  simp [hn]

section Records

variable {α : Type} {fields : List (Field α)} {ms : List Member} {a a' : α}

/-- Of members that overlay a record the keys are spelled and distinct, and they are read one after the other. -/
theorem Overlays.readMembers (hfields : (fields.map Field.key).Nodup) (h : Overlays fields ms a a') :
    ∃ members, keyed? ms = some members ∧ (members.map Prod.fst).Nodup ∧
      (∀ key ∈ members.map Prod.fst, ∃ m ∈ ms, Spells m.key.toList key.toList) ∧
      Json.readMembers fields members a = some a' := by
  induction h with
  | nil => exact ⟨[], rfl, List.nodup_nil, List.forall_mem_nil _, rfl⟩
  | @cons f m ms a b a' hf hkey hread hfresh _ ih =>
    obtain ⟨members, hmembers, hnodup, hspelled, hrest⟩ := ih
    refine ⟨(f.key, m.value) :: members, ?_, List.nodup_cons.2 ⟨fun hmem => ?_, hnodup⟩,
      List.forall_mem_cons.2 ⟨⟨m, List.mem_cons_self, hkey⟩, fun key hk => ?_⟩, ?_⟩
    · unfold keyed? at hmembers ⊢
      simp [hkey.unspell?, hmembers]
    · obtain ⟨m', hm', hspells⟩ := hspelled _ hmem
      exact hfresh m' hm' hspells
    · obtain ⟨m', hm', hspells⟩ := hspelled key hk
      exact ⟨m', List.mem_cons_of_mem m hm', hspells⟩
    · rw [Json.readMembers, find?_of_nodup_keys Field.key hfields hf]
      dsimp only
      rw [hread]
      exact hrest

theorem record?_of_overlays {default : α} (hfields : (fields.map Field.key).Nodup) (h : Overlays fields ms default a) :
    record? default fields (.object ms) = some a := by
  obtain ⟨members, hmembers, hnodup, -, hread⟩ := h.readMembers hfields
  have honce : (fields.all fun f => (members.map Prod.fst).count f.key ≤ 1) = true := by
    simpa using fun (f : Field α) _ => List.nodup_iff_count_le_one.1 hnodup f.key
  simp only [record?, hmembers, Option.bind_eq_bind, Option.bind_some]
  rw [if_pos honce]
  exact hread

theorem forall₂_ofRecord (fields : List (Field α)) (a : α) :
    List.Forall₂ (Field.Shows a) fields (fields.map fun f => ⟨spell f.key, f.codec.encode (f.get a)⟩) := by
  induction fields with
  | nil => exact .nil
  | cons f fields ih => exact .cons ⟨spells_spell f.key, rfl⟩ ih

end Records

theorem library_standard : library.Standard where
  toText _ _ := fun ⟨_, h⟩ => ⟨_, rfl, h.pretty⟩
  ofText codec _ _ h := by
    change (ofText? _).bind codec.decode = _
    rw [h.ofText?]
    rfl
  encode_text s := ⟨spell s, rfl, spells_spell s⟩
  decode_text h := h.unspell?
  encode_flag _ := rfl
  decode_flag _ := rfl
  encode_count _ := rfl
  decode_count := count?_ofNat
  encode_record _ fields a := ⟨_, congrArg Json.object (List.map_map ..), forall₂_ofRecord fields a⟩
  decode_record hfields h := record?_of_overlays hfields h

end Funclet.Json
