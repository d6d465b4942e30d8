import Mathlib.Data.List.Forall2
import Funclet.Proofs.Listing.Lines

/-!
# Listings lose nothing but function numbers

* `Program.lines_eq_iff` : what the lines of a program say about it;
* `Program.listing_eq_iff` : the lines can be told from the text if no name has a line end in it;
* `Body.valueCount_eq` : how many values a body has follows from its instructions;
* `compile_listing_eq_iff` : compiled programs have the same text if and only if they are the same, where functions go
  by their names.
-/

namespace Funclet

/-! ## Lines -/

theorem Declaration.line_eq_iff {d e : Declaration} : d.line = e.line ↔ (d.name, d.params) = (e.name, e.params) := by
  rw [Prod.mk.injEq]
  constructor
  · exact signature_inj
  · rintro ⟨hname, hparams⟩
    rw [line, line, hname, hparams]

namespace Program

variable {p q : Program}

/-- Where the functions without a body end and the bodies begin, and each of them. -/
theorem cut_lines (h : p.lines = q.lines) :
    p.bodiless.map Declaration.line = q.bodiless.map Declaration.line ∧
      p.bodies.map (Body.lines p.nameOf) = q.bodies.map (Body.lines q.nameOf) := by
  have hdeclare (p : Program) : ∀ l ∈ p.bodiless.map Declaration.line, l.toList.head? = some 'd' := by
    intro l hl
    obtain ⟨d, -, rfl⟩ := List.mem_map.1 hl
    simp [Declaration.line]
  have hbody (p : Program) :
      ∀ block ∈ p.bodies.map (Body.lines p.nameOf), Headed (·.toList.head? = some 'f') block := by
    intro block hblock
    obtain ⟨b, -, rfl⟩ := List.mem_map.1 hblock
    exact b.headed_lines _
  have hcut (p : Program) :
      ∀ l ∈ (p.bodies.map (Body.lines p.nameOf)).flatten.head?, ¬ l.toList.head? = some 'd' := by
    intro l hl hd
    rw [Headed.head_flatten (hbody p) l hl] at hd
    cases hd
  rw [lines, lines, List.flatMap_def, List.flatMap_def] at h
  obtain ⟨hd, hb⟩ :=
    append_eq_append_of_head (·.toList.head? = some 'd') (hdeclare p) (hdeclare q) (hcut p) (hcut q) h
  exact ⟨hd, flatten_inj (hbody p) (hbody q) hb⟩

/-- The lines of a program say all about it but the numbers of functions and of values, and where to start. -/
theorem lines_eq_iff :
    p.lines = q.lines ↔
      p.bodiless.map (fun d => (d.name, d.params)) = q.bodiless.map (fun d => (d.name, d.params)) ∧
      List.Forall₂ (fun b c => b.lines p.nameOf = c.lines q.nameOf) p.bodies q.bodies := by
  have hdeclared : p.bodiless.map Declaration.line = q.bodiless.map Declaration.line ↔
      p.bodiless.map (fun d => (d.name, d.params)) = q.bodiless.map (fun d => (d.name, d.params)) := by
    simp only [List.ext_getElem?_iff, List.getElem?_map, map_eq_map_iff fun _ _ => Declaration.line_eq_iff,
      map_eq_map_iff fun _ _ => Iff.rfl]
  have hbodies : p.bodies.map (Body.lines p.nameOf) = q.bodies.map (Body.lines q.nameOf) ↔
      List.Forall₂ (fun b c => b.lines p.nameOf = c.lines q.nameOf) p.bodies q.bodies := by
    rw [← List.forall₂_eq_eq_eq, List.forall₂_map_left_iff, List.forall₂_map_right_iff]
  rw [← hdeclared, ← hbodies]
  constructor
  · exact cut_lines
  · rintro ⟨hd, hb⟩
    rw [lines, lines, hd, List.flatMap_def, List.flatMap_def, hb]

theorem oneLine_nameOf (hp : p.Named OneLine) (id : FunctionId) : OneLine (p.nameOf id) := by
  unfold nameOf
  split
  · exact hp.declarations _ (List.mem_of_find?_eq_some ‹_›)
  · exact .append (by decide) (oneLine_toString id)

theorem oneLine_lines (hp : p.Named OneLine) : ∀ l ∈ p.lines, OneLine l := by
  intro l hl
  rcases List.mem_append.1 hl with hl | hl
  · obtain ⟨d, hd, rfl⟩ := List.mem_map.1 hl
    have hname := hp.declarations d (List.mem_of_mem_filter hd)
    exact .append (.append (.append (.append (by decide) hname) (by decide)) (oneLine_toString _)) (by decide)
  · obtain ⟨b, hb, hl⟩ := List.mem_flatMap.1 hl
    exact Body.oneLine_lines (oneLine_nameOf hp) (hp.bodies b hb) l hl

/-- The lines can be told from the text if no name has a line end in it. -/
theorem listing_eq_iff (hp : p.Named OneLine) (hq : q.Named OneLine) : p.listing = q.listing ↔ p.lines = q.lines :=
  ⟨join_lines_inj (oneLine_lines hp) (oneLine_lines hq), fun h => by rw [listing, listing, h]⟩

end Program

/-! ## Values -/

variable {R : FunctionId → FunctionId → Prop} {b c : Body}

theorem Inst.Alike.dest?_eq {i j : Inst} (h : i.Alike R j) : i.dest? = j.dest? := by
  cases h <;> rfl

theorem Body.definedAt_iff
    (h : ∀ k : Nat, Option.Rel (Region.Alike R) b.regions[k]? c.regions[k]?) (point : Point) (v : ValueId) :
    b.DefinedAt point v ↔ c.DefinedAt point v := by
  unfold DefinedAt
  rcases optionRel_iff.1 (h point.region) with ⟨hb, hc⟩ | ⟨g, g', hb, hc, hg⟩
  · simp [hb, hc]
  · rcases optionRel_iff.1 (hg.insts point.index) with ⟨hi, hj⟩ | ⟨i, j, hi, hj, hij⟩
    · simp [hb, hc, hi, hj]
    · simp [hb, hc, hi, hj, hij.dest?_eq]

/-- A value below the count is defined by an instruction, and no instruction defines any other. -/
theorem Body.WellFormed.lt_valueCount_iff (h : b.WellFormed) (v : ValueId) :
    v < b.valueCount ↔ ∃ point, b.DefinedAt point v := by
  constructor
  · intro hv
    exact (h.defined v hv).exists
  · rintro ⟨point, g, i, hg, hi, hdest⟩
    exact (h.insts point.region g hg point.index i hi).dest v hdest

/-- How many values a body has follows from its instructions. -/
theorem Body.valueCount_eq (hb : b.WellFormed) (hc : c.WellFormed)
    (h : ∀ k : Nat, Option.Rel (Region.Alike R) b.regions[k]? c.regions[k]?) : b.valueCount = c.valueCount := by
  have hiff (v : ValueId) : v < b.valueCount ↔ v < c.valueCount := by
    rw [hb.lt_valueCount_iff, hc.lt_valueCount_iff]
    exact exists_congr fun point => definedAt_iff h point v
  exact Nat.le_antisymm (Nat.le_of_not_lt fun hlt => (Nat.lt_irrefl _) ((hiff _).1 hlt))
    (Nat.le_of_not_lt fun hlt => (Nat.lt_irrefl _) ((hiff _).2 hlt))

theorem Body.WellFormed.lines_eq_iff {p q : FunctionId → String} (hb : b.WellFormed) (hc : c.WellFormed) :
    b.lines p = c.lines q ↔ b.params = c.params ∧ b.Alike (fun f g => p f = q g) c := by
  rw [Body.lines_eq_iff]
  constructor
  · rintro ⟨hname, hparams, hslots, hregions⟩
    exact ⟨hparams, hname, hslots, Body.valueCount_eq hb hc hregions, hregions⟩
  · rintro ⟨hparams, halike⟩
    exact ⟨halike.name, hparams, halike.slots, halike.regions⟩

/-! ## Compiled programs -/

/-- Compiled programs have the same text if and only if they have the same functions without a body, with the same names
and parameters in the same order, and the same bodies in the same order, where functions go by their names. -/
theorem compile_listing_eq_iff (settings settings' : Settings) (source source' : String) :
    let p := (compile settings source).program
    let q := (compile settings' source').program
    p.listing = q.listing ↔
      p.bodiless.map (fun d => (d.name, d.params)) = q.bodiless.map (fun d => (d.name, d.params)) ∧
      List.Forall₂ (fun b c => b.params = c.params ∧ b.Alike (fun f g => p.nameOf f = q.nameOf g) c)
        p.bodies q.bodies := by
  intro p q
  obtain ⟨hp, hpbodies⟩ := compile_program settings source
  obtain ⟨hq, hqbodies⟩ := compile_program settings' source'
  have hlines : ∀ b c, (b, c) ∈ p.bodies.zip q.bodies → (b.lines p.nameOf = c.lines q.nameOf ↔
      b.params = c.params ∧ b.Alike (fun f g => p.nameOf f = q.nameOf g) c) := by
    intro b c hbc
    obtain ⟨hb, hc⟩ := List.of_mem_zip hbc
    exact (hpbodies b hb).lines_eq_iff (hqbodies c hc)
  rw [Program.listing_eq_iff hp hq, Program.lines_eq_iff, List.forall₂_iff_zip, List.forall₂_iff_zip]
  refine and_congr_right fun _ => and_congr_right fun _ => ?_
  constructor
  · exact fun h b c hbc => (hlines b c hbc).1 (h hbc)
  · exact fun h b c hbc => (hlines b c hbc).2 (h hbc)

end Funclet
