import Funclet.Proofs.FileTree
import Funclet.Proofs.Json.Libraries
import Funclet.Settings.File

/-!
# Settings in files

* `Json.Lists` : an object with just the given keys, in that order; `Lists.overlays` : what it changes in a record;
* `Settings.Shown s keys limitKeys j` : the tree `j` holds some of the settings `s`, and some of the limits among them;
* `Settings.only` : the settings of which only some are kept, the others being the defaults; what is read of such a tree
  (`Settings.decode_of_shown`);
* `Settings.load_faithful` : so settings survive being saved, and a file that holds some of them leaves the others at
  their defaults, with any library that writes and reads standard JSON and any file system that returns what was
  written.
-/

namespace Funclet

/-! ## Objects by their keys -/

namespace Json

variable {κ : Type} (name : κ → String) (shows : κ → Json → Prop)

/-- The member has the name of the key, spelled in any way, and a value that shows what is asked of the key. -/
def IsMember (k : κ) (m : Member) : Prop := Spells m.key.toList (name k).toList ∧ shows k m.value

/-- The tree is an object with one member for each of the keys, in their order. -/
def Lists (keys : List κ) (j : Json) : Prop := ∃ ms, j = .object ms ∧ List.Forall₂ (IsMember name shows) keys ms

variable {name shows} {keys : List κ} {ms : List Member}

theorem exists_key (h : List.Forall₂ (IsMember name shows) keys ms) {m : Member} (hm : m ∈ ms) :
    ∃ k ∈ keys, IsMember name shows k m := by
  induction h with
  | nil => cases hm
  | cons hk _ ih =>
    rcases List.mem_cons.1 hm with rfl | hm
    · exact ⟨_, List.mem_cons_self, hk⟩
    · obtain ⟨k, hmem, hshows⟩ := ih hm
      exact ⟨k, List.mem_cons_of_mem _ hmem, hshows⟩

theorem Lists.text {j : Json} (h : Lists name shows keys j) (hshows : ∀ k j, shows k j → ∃ cs, Text (.value j) cs) :
    ∃ cs, Text (.value j) cs := by
  obtain ⟨ms, rfl, hms⟩ := h
  refine text_object fun m hm => ?_
  obtain ⟨k, -, hkey, hvalue⟩ := exists_key hms hm
  exact ⟨⟨_, hkey⟩, hshows k m.value hvalue⟩

/-- An object by its keys changes what each of the keys is about. -/
theorem overlays_of_keys {α : Type} {fields : List (Field α)} {update : κ → α → α} (hname : Function.Injective name)
    (hread : ∀ k, ∃ f ∈ fields, f.key = name k ∧ ∀ j a, shows k j → f.read j a = some (update k a))
    (hkeys : keys.Nodup) (h : List.Forall₂ (IsMember name shows) keys ms) (a : α) :
    Overlays fields ms a (keys.foldl (fun a k => update k a) a) := by
  induction h generalizing a with
  | nil => exact .nil
  | @cons k m keys ms hm hms ih =>
    obtain ⟨hk, hkeys⟩ := List.nodup_cons.1 hkeys
    obtain ⟨f, hf, hkey, hfield⟩ := hread k
    refine .cons hf (hkey ▸ hm.1) (hfield _ a hm.2) (fun m' hm' hspells => ?_) (ih hkeys _)
    obtain ⟨k', hk', hspells', -⟩ := exists_key hms hm'
    rw [hkey] at hspells
    have hsame : name k = name k' := Option.some.inj (hspells.unspell?.symm.trans hspells'.unspell?)
    exact hk (hname hsame ▸ hk')

theorem Lists.decode {α : Type} {lib : Library} (hlib : lib.Standard) {default : α} {fields : List (Field α)}
    {update : κ → α → α} (hfields : (fields.map Field.key).Nodup) (hname : Function.Injective name)
    (hread : ∀ k, ∃ f ∈ fields, f.key = name k ∧ ∀ j a, shows k j → f.read j a = some (update k a))
    (hkeys : keys.Nodup) {j : Json} (h : Lists name shows keys j) :
    (lib.record default fields).decode j = some (keys.foldl (fun a k => update k a) default) := by
  obtain ⟨ms, rfl, hms⟩ := h
  exact hlib.decode_record hfields (overlays_of_keys hname hread hkeys hms default)

theorem Field.read_of_decode {α : Type} {f : Field α} {j : Json} {v : f.Value} (h : f.codec.decode j = some v) (a : α) :
    f.read j a = some (f.set v a) := by
  unfold Field.read
  rw [h]
  rfl

end Json

/-! ## Values in files -/

section Values

variable {α σ : Type} {lib : Json.Library} {codec : Json.Codec α} {fs : FileSystem σ} {a : α} {text : String}

/-- A value that has a text is in the file to which it has been written, by way of a second file. It can fail to be
written only because of a file. -/
theorem writeJson_outcome (hfs : fs.Faithful) (htext : lib.toText codec a = some text) (path : String) (t : σ) :
    (∃ t', writeJson lib codec fs a path t = (.ok (), t') ∧ (fs.read path t').1 = .ok text.toUTF8) ∨
      ∃ e t', writeJson lib codec fs a path t = (.error (.file e), t') := by
  unfold writeJson
  rw [htext]
  rcases hwrite : fs.write (FileTree.beside path ".tmp") text.toUTF8 t with ⟨e | _, t₁⟩
  · exact .inr ⟨e, t₁, by simp only [hwrite]⟩
  · rcases hrename : fs.rename (FileTree.beside path ".tmp") path t₁ with ⟨e | _, t₂⟩
    · exact .inr ⟨e, t₂, by simp only [hwrite, hrename]⟩
    · refine .inl ⟨t₂, by simp only [hwrite, hrename], ?_⟩
      exact (hfs.read_rename hrename).trans (hfs.read_write hwrite)

end Values

/-! ## Limits -/

namespace Limits

inductive Key where
  | maxCallDepth
  | maxSteps
deriving DecidableEq

def Key.name : Key → String
  | maxCallDepth => "max_call_depth"
  | maxSteps => "max_steps"

theorem Key.name_injective : Function.Injective name := by
  intro k k' h
  cases k <;> cases k' <;> simp_all [name]

/-- The limits are numbers of 64 bits. -/
def Fits (l : Limits) : Prop := l.maxCallDepth ≤ Json.maxCount ∧ l.maxSteps ≤ Json.maxCount

def Shows (l : Limits) : Key → Json → Prop
  | .maxCallDepth, j => j = .ofNat l.maxCallDepth
  | .maxSteps, j => j = .ofNat l.maxSteps

def update (l : Limits) : Key → Limits → Limits
  | .maxCallDepth, a => { a with maxCallDepth := l.maxCallDepth }
  | .maxSteps, a => { a with maxSteps := l.maxSteps }

/-- The limits with some of the keys, the others being the defaults. -/
def only (l : Limits) (keys : List Key) : Limits where
  maxCallDepth := if .maxCallDepth ∈ keys then l.maxCallDepth else ({} : Limits).maxCallDepth
  maxSteps := if .maxSteps ∈ keys then l.maxSteps else ({} : Limits).maxSteps

variable {l : Limits} {keys : List Key} {lib : Json.Library}

theorem foldl_update (l : Limits) (keys : List Key) (a : Limits) : keys.foldl (fun a k => l.update k a) a =
    ⟨if .maxCallDepth ∈ keys then l.maxCallDepth else a.maxCallDepth,
      if .maxSteps ∈ keys then l.maxSteps else a.maxSteps⟩ := by
  induction keys generalizing a with
  | nil => simp
  | cons k keys ih =>
    rw [List.foldl_cons, ih]
    cases k <;> simp [update]

theorem text_of_shows (k : Key) (j : Json) (h : l.Shows k j) : ∃ cs, Json.Text (.value j) cs := by
  cases k <;> exact ⟨_, h ▸ Json.text_ofNat _⟩

theorem decode_of_lists (hlib : lib.Standard) (hl : l.Fits) (hkeys : keys.Nodup) {j : Json}
    (h : Json.Lists Key.name l.Shows keys j) : (Limits.codec lib).decode j = some (l.only keys) := by
  refine (h.decode hlib (by simp) Key.name_injective (fun k => ?_) hkeys).trans (congrArg some (l.foldl_update keys {}))
  cases k with
  | maxCallDepth =>
    refine ⟨_, List.mem_cons_self, rfl, fun j a hj => Json.Field.read_of_decode ?_ a⟩
    exact hj ▸ hlib.decode_count hl.1
  | maxSteps =>
    refine ⟨_, List.mem_cons_of_mem _ List.mem_cons_self, rfl, fun j a hj => Json.Field.read_of_decode ?_ a⟩
    exact hj ▸ hlib.decode_count hl.2

theorem lists_encode (hlib : lib.Standard) (hl : l.Fits) :
    Json.Lists Key.name l.Shows [.maxCallDepth, .maxSteps] ((Limits.codec lib).encode l) := by
  obtain ⟨ms, hencode, hms⟩ := hlib.encode_record {} _ l
  refine ⟨ms, hencode, ?_⟩
  obtain _ | ⟨hdepth, _ | ⟨hsteps, ⟨⟩⟩⟩ := hms
  exact .cons ⟨hdepth.1, hdepth.2.trans (hlib.encode_count hl.1)⟩
    (.cons ⟨hsteps.1, hsteps.2.trans (hlib.encode_count hl.2)⟩ .nil)

end Limits

/-! ## Settings -/

namespace Settings

inductive Key where
  | entry
  | strictForwardRefs
  | textEscapes
  | limits
deriving DecidableEq

def Key.name : Key → String
  | entry => "entry"
  | strictForwardRefs => "strict_forward_refs"
  | textEscapes => "text_escapes"
  | limits => "vm"

theorem Key.name_injective : Function.Injective name := by
  intro k k' h
  cases k <;> cases k' <;> simp_all [name]

/-- What stands under a key, where just the given keys of the limits are shown. -/
def Shows (s : Settings) (limitKeys : List Limits.Key) : Key → Json → Prop
  | .entry, j => ∃ sp, j = .string sp ∧ Json.Spells sp.toList s.entry.toList
  | .strictForwardRefs, j => j = .bool s.strictForwardRefs
  | .textEscapes, j => j = .bool s.textEscapes
  | .limits, j => Json.Lists Limits.Key.name s.limits.Shows limitKeys j

/-- The tree holds just the given keys of the settings, in any order, and under that of the limits just the given ones
of those. -/
structure Shown (s : Settings) (keys : List Key) (limitKeys : List Limits.Key) (j : Json) : Prop where
  nodup : keys.Nodup
  nodupLimits : limitKeys.Nodup
  lists : Json.Lists Key.name (s.Shows limitKeys) keys j

def update (s : Settings) (limitKeys : List Limits.Key) : Key → Settings → Settings
  | .entry, a => { a with entry := s.entry }
  | .strictForwardRefs, a => { a with strictForwardRefs := s.strictForwardRefs }
  | .textEscapes, a => { a with textEscapes := s.textEscapes }
  | .limits, a => { a with limits := s.limits.only limitKeys }

def only (s : Settings) (keys : List Key) (limitKeys : List Limits.Key) : Settings where
  entry := if .entry ∈ keys then s.entry else ({} : Settings).entry
  strictForwardRefs := if .strictForwardRefs ∈ keys then s.strictForwardRefs else ({} : Settings).strictForwardRefs
  textEscapes := if .textEscapes ∈ keys then s.textEscapes else ({} : Settings).textEscapes
  limits := if .limits ∈ keys then s.limits.only limitKeys else ({} : Settings).limits

variable {s : Settings} {keys : List Key} {limitKeys : List Limits.Key} {j : Json} {lib : Json.Library}

theorem foldl_update (s : Settings) (keys : List Key) (limitKeys : List Limits.Key) (a : Settings) :
    keys.foldl (fun a k => s.update limitKeys k a) a =
      ⟨if .entry ∈ keys then s.entry else a.entry,
        if .strictForwardRefs ∈ keys then s.strictForwardRefs else a.strictForwardRefs,
        if .textEscapes ∈ keys then s.textEscapes else a.textEscapes,
        if .limits ∈ keys then s.limits.only limitKeys else a.limits⟩ := by
  induction keys generalizing a with
  | nil => simp
  | cons k keys ih =>
    rw [List.foldl_cons, ih]
    cases k <;> simp [update]

theorem only_all (s : Settings) :
    s.only [.entry, .strictForwardRefs, .textEscapes, .limits] [.maxCallDepth, .maxSteps] = s := by
  simp [only, Limits.only]

theorem text_of_shows (k : Key) (j : Json) (h : s.Shows limitKeys k j) : ∃ cs, Json.Text (.value j) cs := by
  cases k with
  | entry =>
    obtain ⟨sp, rfl, hsp⟩ := h
    exact Json.text_string hsp
  | strictForwardRefs => exact h ▸ Json.text_bool _
  | textEscapes => exact h ▸ Json.text_bool _
  | limits => exact Json.Lists.text h Limits.text_of_shows

theorem Shown.text (h : s.Shown keys limitKeys j) : ∃ cs, Json.Text (.value j) cs := h.lists.text text_of_shows

section Standard

variable (hlib : lib.Standard) (hs : s.limits.Fits)
include hlib hs

theorem decode_of_shown (h : s.Shown keys limitKeys j) :
    (Settings.codec lib).decode j = some (s.only keys limitKeys) := by
  refine (h.lists.decode hlib (by simp) Key.name_injective (fun k => ?_) h.nodup).trans
    (congrArg some (s.foldl_update keys limitKeys {}))
  cases k with
  | entry =>
    refine ⟨_, List.mem_cons_self, rfl, fun j a hj => Json.Field.read_of_decode ?_ a⟩
    obtain ⟨sp, rfl, hsp⟩ := hj
    exact hlib.decode_text hsp
  | strictForwardRefs =>
    refine ⟨_, List.mem_cons_of_mem _ List.mem_cons_self, rfl, fun j a hj => Json.Field.read_of_decode ?_ a⟩
    exact hj ▸ hlib.decode_flag _
  | textEscapes =>
    refine ⟨_, List.mem_cons_of_mem _ (List.mem_cons_of_mem _ List.mem_cons_self), rfl,
      fun j a hj => Json.Field.read_of_decode ?_ a⟩
    exact hj ▸ hlib.decode_flag _
  | limits =>
    refine ⟨_, List.mem_cons_of_mem _ (List.mem_cons_of_mem _ (List.mem_cons_of_mem _ List.mem_cons_self)), rfl,
      fun j a hj => Json.Field.read_of_decode ?_ a⟩
    exact Limits.decode_of_lists hlib hs h.nodupLimits hj

theorem shown_encode : s.Shown [.entry, .strictForwardRefs, .textEscapes, .limits] [.maxCallDepth, .maxSteps]
    ((Settings.codec lib).encode s) := by
  obtain ⟨ms, hencode, hms⟩ := hlib.encode_record {} _ s
  refine ⟨by decide, by decide, ms, hencode, ?_⟩
  obtain _ | ⟨hentry, _ | ⟨hstrict, _ | ⟨hescapes, _ | ⟨hlimits, ⟨⟩⟩⟩⟩⟩ := hms
  obtain ⟨sp, hsp, hspells⟩ := hlib.encode_text s.entry
  refine .cons ⟨hentry.1, sp, hentry.2.trans hsp, hspells⟩ (.cons ⟨hstrict.1, hstrict.2.trans (hlib.encode_flag _)⟩
    (.cons ⟨hescapes.1, hescapes.2.trans (hlib.encode_flag _)⟩ (.cons ⟨hlimits.1, ?_⟩ .nil)))
  exact hlimits.2 ▸ Limits.lists_encode hlib hs

/-! ## Files -/

theorem load_of_shown (h : s.Shown keys limitKeys j) {text : String} (htext : Json.Document j text) :
    Settings.load lib (.ok text.toUTF8) = .ok (s.only keys limitKeys) := by
  have hutf8 : textOf text.toUTF8 = .ok text := by
    unfold textOf
    rw [show String.fromUTF8? text.toUTF8 = some text from dif_pos text.isValidUTF8]
  have hread : lib.ofText (Settings.codec lib) text = some (s.only keys limitKeys) :=
    (hlib.ofText _ htext).trans (decode_of_shown hlib hs h)
  simp only [Settings.load, readJson, Except.bind, hutf8, hread]

/-- There is a text for settings, and it shows all of them. -/
theorem exists_text : ∃ text, lib.toText (Settings.codec lib) s = some text ∧
    Json.Document ((Settings.codec lib).encode s) text := by
  obtain ⟨cs, hcs⟩ := (shown_encode hlib hs).text
  exact hlib.toText _ s ⟨_, hcs.document⟩

end Standard

/-- Settings survive being saved: the text that is written for them is read as the settings, and so is the file at any
path to which they are saved, which fails only if a file cannot be written. And from a file whose text is an object with
some of the settings, in any order and layout, just those are read, while all others have their defaults. -/
theorem load_faithful (hlib : lib.Standard) {σ : Type} {fs : FileSystem σ} (hfs : fs.Faithful) (s : Settings)
    (hs : s.limits.Fits) :
    (∃ text, lib.toText (Settings.codec lib) s = some text ∧ lib.ofText (Settings.codec lib) text = some s) ∧
    (∀ path t, (∃ t', Settings.save lib fs s path t = (.ok (), t') ∧ Settings.load lib (fs.read path t').1 = .ok s) ∨
      ∃ e t', Settings.save lib fs s path t = (.error (.file e), t')) ∧
    ∀ keys limitKeys j text, s.Shown keys limitKeys j → Json.Document j text →
      Settings.load lib (.ok text.toUTF8) = .ok (s.only keys limitKeys) := by
  obtain ⟨text, htext, hdocument⟩ := exists_text hlib hs
  have hshown : s.Shown _ _ ((Settings.codec lib).encode s) := shown_encode hlib hs
  refine ⟨⟨text, htext, ?_⟩, fun path t => ?_, fun _ _ _ _ h htext => load_of_shown hlib hs h htext⟩
  · rw [hlib.ofText _ hdocument, decode_of_shown hlib hs hshown, only_all]
  · refine (writeJson_outcome hfs htext path t).imp_left fun ⟨t', hsave, hread⟩ => ⟨t', hsave, ?_⟩
    rw [hread, load_of_shown hlib hs hshown hdocument, only_all]

/-- Settings with a name that has to be spelled, and the largest number of steps. -/
def unusual : Settings := { entry := "\"é\\\n\x01", strictForwardRefs := false, limits := ⟨7, Json.maxCount⟩ }

/-- Two of them, and one of the limits, in another order. -/
def unusualPart : Json :=
  .ofMembers [("vm", .ofMembers [("max_steps", .ofNat Json.maxCount)]), ("entry", .ofString unusual.entry)]

theorem load_faithful_unusual :
    (∃ t, Settings.save Json.library FileTree.system unusual "settings.json" (.initial .empty) = (.ok (), t) ∧
      Settings.load Json.library (t.read "settings.json").1 = .ok unusual) ∧
    Settings.load Json.library (.ok unusualPart.pretty.toUTF8) =
      .ok { entry := "\"é\\\n\x01", limits := { maxSteps := Json.maxCount } } := by
  obtain ⟨-, hsaved, hpart⟩ :=
    load_faithful Json.library_standard FileTree.system_faithful unusual ⟨by decide, by decide⟩
  have hshown : unusual.Shown [.limits, .entry] [.maxSteps] unusualPart :=
    ⟨by decide, by decide, _, rfl, .cons ⟨Json.spells_spell _, _, rfl, .cons ⟨Json.spells_spell _, rfl⟩ .nil⟩
      (.cons ⟨Json.spells_spell _, _, rfl, Json.spells_spell _⟩ .nil)⟩
  obtain ⟨cs, hcs⟩ := hshown.text
  refine ⟨(hsaved "settings.json" (.initial .empty)).resolve_right fun ⟨e, t, herror⟩ => ?_,
    hpart _ _ _ _ hshown hcs.document.pretty⟩
  have hok : (Settings.save Json.library FileTree.system unusual "settings.json" (.initial .empty)).1.isOk = true := by
    decide +kernel
  rw [herror] at hok
  cases hok

end Settings

end Funclet
