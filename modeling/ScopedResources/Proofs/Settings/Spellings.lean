import ScopedResources.Proofs.Json.Takes
import ScopedResources.Proofs.Settings.RoundTrip

/-! # Spellings of settings

Settings may be spelled in many ways: each record in them with its parts in any order and unknown members
between them, or as an array; with or without the parts that are as they are by default; each value with
its content before its type or behind it; each text with or without escapes. All texts that spell the
same settings are read as these settings. -/

namespace ScopedResources

open Json

/-- No part of this kind may be left out. -/
def never {α : Type} (_ : α) : Bool := false

section
variable {β : Type} {seen : List String} {name : String} {b default : β}

theorem ifRead_of_mem (h : name ∈ seen) : ifRead seen name b = some b := if_pos h

/-- A part that has not been read is as it is by default. -/
theorem getD_ifRead (h : name ∈ seen ∨ b = default) : (ifRead seen name b).getD default = b := by
  by_cases hseen : name ∈ seen
  · rw [ifRead_of_mem hseen, Option.getD_some]
  · rw [ifRead, if_neg hseen, Option.getD_none, h.resolve_left hseen]

end

/-! ## Colors -/

def IsChannel (n : UInt8) : Json → Prop := IsNat n.toNat

theorem takes_channel : Takes readChannel 0 IsChannel := by
  rintro n room _ _ rfl
  rw [readChannel, readBelow_nat n.toNat_lt (by decide) room]
  exact congrArg Except.ok UInt8.ofNat_toNat

namespace Color

def parts : List (RecordPart Color) := [
  ⟨"r", fun c => IsChannel c.red, never⟩,
  ⟨"g", fun c => IsChannel c.green, never⟩,
  ⟨"b", fun c => IsChannel c.blue, never⟩,
  ⟨"a", fun c => IsChannel c.alpha, fun c => c.alpha = opaqueAlpha⟩]

def draft (c : Color) (seen : List String) : Draft :=
  ⟨ifRead seen "r" c.red, ifRead seen "g" c.green, ifRead seen "b" c.blue, ifRead seen "a" c.alpha⟩

theorem reads : record.Reads parts 0 draft where
  blank _ := rfl
  fields := by
    refine .cons ?_ (.cons ?_ (.cons ?_ (.cons ?_ .nil)))
    · exact Field.reads_of red takes_channel (fun _ _ => rfl) fun _ _ => by simp [draft, ifRead]
    · exact Field.reads_of green takes_channel (fun _ _ => rfl) fun _ _ => by simp [draft, ifRead]
    · exact Field.reads_of blue takes_channel (fun _ _ => rfl) fun _ _ => by simp [draft, ifRead]
    · exact Field.reads_of alpha takes_channel (fun _ _ => rfl) fun _ _ => by simp [draft, ifRead]
  finish c seen h := by
    obtain ⟨hr, hg, hb, ha⟩ : "r" ∈ seen ∧ "g" ∈ seen ∧ "b" ∈ seen ∧
        ("a" ∈ seen ∨ c.alpha = opaqueAlpha) := by simpa [parts, never] using h
    simp [record, draft, ifRead_of_mem hr, ifRead_of_mem hg, ifRead_of_mem hb, getD_ifRead ha]

theorem takes : Takes record.read 1 (LaidOut parts) := reads.takes

theorem isWhole {c : Color} {j : Json} (h : LaidOut parts c j) : IsWhole (spareDepth + 1) j := by
  refine h.isWhole (Nat.le_refl _) ?_
  simp only [parts, List.forall_mem_cons]
  exact ⟨fun _ => IsNat.isWhole, fun _ => IsNat.isWhole, fun _ => IsNat.isWhole,
    fun _ => IsNat.isWhole, nofun⟩

end Color

/-! ## Brushes -/

namespace SolidBrush

def parts : List (RecordPart SolidBrush) := [⟨"color", fun b => LaidOut Color.parts b.color, never⟩]

def draft (b : SolidBrush) (seen : List String) : Draft := ⟨ifRead seen "color" b.color⟩

theorem reads : record.Reads parts 1 draft where
  blank _ := rfl
  fields := by
    refine .cons ?_ .nil
    exact Field.reads_of color Color.takes (fun _ _ => rfl) fun _ _ => by simp [draft, ifRead]
  finish b seen h := by
    have hcolor : "color" ∈ seen := by simpa [parts, never] using h
    simp [record, draft, ifRead_of_mem hcolor]

theorem takes : Takes record.read 2 (LaidOut parts) := reads.takes

theorem isWhole {b : SolidBrush} {j : Json} (h : LaidOut parts b j) : IsWhole (spareDepth + 2) j :=
  h.isWhole (Nat.le_add_right ..) (List.forall_mem_singleton.mpr fun _ => Color.isWhole)

end SolidBrush

namespace GradientStop

def parts : List (RecordPart GradientStop) := [
  ⟨"color", fun s => LaidOut Color.parts s.color, never⟩,
  ⟨"offset", fun s => IsReal s.offset, never⟩]

def draft (s : GradientStop) (seen : List String) : Draft :=
  ⟨ifRead seen "color" s.color, ifRead seen "offset" s.offset⟩

theorem reads : record.Reads parts 1 draft where
  blank _ := rfl
  fields := by
    refine .cons ?_ (.cons ?_ .nil)
    · exact Field.reads_of color Color.takes (fun _ _ => rfl) fun _ _ => by simp [draft, ifRead]
    · exact Field.reads_of offset (takes_real.mono (by omega)) (fun _ _ => rfl)
        fun _ _ => by simp [draft, ifRead]
  finish s seen h := by
    obtain ⟨hcolor, hoffset⟩ : "color" ∈ seen ∧ "offset" ∈ seen := by simpa [parts, never] using h
    simp [record, draft, ifRead_of_mem hcolor, ifRead_of_mem hoffset]

theorem takes : Takes record.read 2 (LaidOut parts) := reads.takes

theorem isWhole {s : GradientStop} {j : Json} (h : LaidOut parts s j) : IsWhole (spareDepth + 2) j := by
  refine h.isWhole (Nat.le_add_right ..) ?_
  simp only [parts, List.forall_mem_cons]
  exact ⟨fun _ => Color.isWhole, fun _ => IsReal.isWhole, nofun⟩

end GradientStop

namespace GradientBrush

def parts : List (RecordPart GradientBrush) :=
  [⟨"stops", fun b => IsList (LaidOut GradientStop.parts) b.stops, never⟩]

def draft (b : GradientBrush) (seen : List String) : Draft := ⟨ifRead seen "stops" b.stops⟩

theorem reads : record.Reads parts 3 draft where
  blank _ := rfl
  fields := by
    refine .cons ?_ .nil
    exact Field.reads_of stops (takes_list GradientStop.takes) (fun _ _ => rfl)
      fun _ _ => by simp [draft, ifRead]
  finish b seen h := by
    have hstops : "stops" ∈ seen := by simpa [parts, never] using h
    simp [record, draft, ifRead_of_mem hstops]

theorem takes : Takes record.read 4 (LaidOut parts) := reads.takes

theorem isWhole {b : GradientBrush} {j : Json} (h : LaidOut parts b j) : IsWhole (spareDepth + 4) j :=
  h.isWhole (Nat.le_add_right ..) (List.forall_mem_singleton.mpr fun _ hstops =>
    hstops.isWhole fun _ _ => GradientStop.isWhole)

end GradientBrush

/-! ## Values -/

namespace Value

def ContentStands : Value → Json → Prop
  | color c => LaidOut Color.parts c
  | solidBrush b => LaidOut SolidBrush.parts b
  | gradientBrush b => LaidOut GradientBrush.parts b
  | text s => IsText s
  | number x => IsReal x
  | flag b => IsBool b

def Stands (v : Value) : Json → Prop := TaggedOut "type" "value" v.kind.name v.ContentStands

theorem readContent_of_stands {v : Value} {room : Nat} {j : Json} (hroom : spareDepth + 4 < room)
    (h : v.ContentStands j) : readContent v.kind room j = .ok v := by
  have hdepth : 4 < room := by omega
  cases v with
  | color c => exact congrArg (Except.map color) (Color.takes (by omega) h)
  | solidBrush b => exact congrArg (Except.map solidBrush) (SolidBrush.takes (by omega) h)
  | gradientBrush b => exact congrArg (Except.map gradientBrush) (GradientBrush.takes hdepth h)
  | text s => exact congrArg (Except.map text) (takes_text (by omega) h)
  | number x => exact congrArg (Except.map number) (takes_real (by omega) h)
  | flag b => exact congrArg (Except.map flag) (takes_bool (by omega) h)

theorem isWhole_content {v : Value} {j : Json} (h : v.ContentStands j) :
    IsWhole (spareDepth + 4) j := by
  cases v with
  | color c => exact (Color.isWhole h).mono (by omega)
  | solidBrush b => exact (SolidBrush.isWhole h).mono (by omega)
  | gradientBrush b => exact GradientBrush.isWhole h
  | text s => exact h ▸ .text s
  | number x => exact IsReal.isWhole h
  | flag b => exact h ▸ .bool b

/-- The room has to hold a whole content, which may be looked through before it is read. -/
theorem takes : Takes reader (spareDepth + 5) Stands := by
  have hkind : ∀ v : Value, tagged.kinds.lookup v.kind.name = some v.kind := fun v => by
    cases v <;> rfl
  exact Tagged.takes (by decide) hkind (fun _ _ _ => readContent_of_stands) fun _ _ => isWhole_content

end Value

/-! ## Settings -/

namespace SeedEntry

def parts : List (RecordPart SeedEntry) := [
  ⟨"name", fun e => IsText e.name, never⟩,
  ⟨"value", fun e => e.value.Stands, never⟩]

def draft (e : SeedEntry) (seen : List String) : Draft :=
  ⟨ifRead seen "name" e.name, ifRead seen "value" e.value⟩

theorem reads : record.Reads parts (spareDepth + 5) draft where
  blank _ := rfl
  fields := by
    refine .cons ?_ (.cons ?_ .nil)
    · exact Field.reads_of name (takes_text.mono (by omega)) (fun _ _ => rfl)
        fun _ _ => by simp [draft, ifRead]
    · exact Field.reads_of value Value.takes (fun _ _ => rfl) fun _ _ => by simp [draft, ifRead]
  finish e seen h := by
    obtain ⟨hname, hvalue⟩ : "name" ∈ seen ∧ "value" ∈ seen := by simpa [parts, never] using h
    simp [record, draft, ifRead_of_mem hname, ifRead_of_mem hvalue]

theorem takes : Takes record.read (spareDepth + 6) (LaidOut parts) := reads.takes

end SeedEntry

namespace Settings

def IsCapacity (n : UInt64) : Json → Prop := IsNat n.toNat

theorem takes_capacity : Takes readCapacity 0 IsCapacity := by
  rintro n room _ _ rfl
  rw [readCapacity, readBelow_nat n.toNat_lt (Nat.le_refl _) room]
  exact congrArg Except.ok UInt64.ofNat_toNat

def parts : List (RecordPart Settings) := [
  ⟨"channel_capacity", fun s => IsCapacity s.channelCapacity,
    fun s => s.channelCapacity = default.channelCapacity⟩,
  ⟨"event_capacity", fun s => IsCapacity s.eventCapacity,
    fun s => s.eventCapacity = default.eventCapacity⟩,
  ⟨"can_create_resources", fun s => IsBool s.canCreateResources,
    fun s => s.canCreateResources = default.canCreateResources⟩,
  ⟨"include_builtin_seed", fun s => IsBool s.includeBuiltinSeed,
    fun s => s.includeBuiltinSeed = default.includeBuiltinSeed⟩,
  ⟨"application_resources", fun s => IsList (LaidOut SeedEntry.parts) s.applicationResources,
    fun s => s.applicationResources = default.applicationResources⟩]

def draft (s : Settings) (seen : List String) : Draft :=
  ⟨ifRead seen "channel_capacity" s.channelCapacity, ifRead seen "event_capacity" s.eventCapacity,
    ifRead seen "can_create_resources" s.canCreateResources,
    ifRead seen "include_builtin_seed" s.includeBuiltinSeed,
    ifRead seen "application_resources" s.applicationResources⟩

theorem reads : record.Reads parts (spareDepth + 7) draft where
  blank _ := rfl
  fields := by
    have hcapacity := takes_capacity.mono (Nat.zero_le (spareDepth + 7))
    have hbool := takes_bool.mono (Nat.zero_le (spareDepth + 7))
    refine .cons ?_ (.cons ?_ (.cons ?_ (.cons ?_ (.cons ?_ .nil))))
    · exact Field.reads_of channelCapacity hcapacity (fun _ _ => rfl)
        fun _ _ => by simp [draft, ifRead, Capacity.field]
    · exact Field.reads_of eventCapacity hcapacity (fun _ _ => rfl)
        fun _ _ => by simp [draft, ifRead, Capacity.field]
    · exact Field.reads_of canCreateResources hbool (fun _ _ => rfl)
        fun _ _ => by simp [draft, ifRead]
    · exact Field.reads_of includeBuiltinSeed hbool (fun _ _ => rfl)
        fun _ _ => by simp [draft, ifRead]
    · exact Field.reads_of applicationResources (takes_list SeedEntry.takes) (fun _ _ => rfl)
        fun _ _ => by simp [draft, ifRead]
  finish s seen h := by
    simp only [parts, List.forall_mem_cons, decide_eq_true_eq] at h
    obtain ⟨hchannel, hevent, hcreate, hbuiltin, hentries, _⟩ := h
    simp only [record, draft, getD_ifRead hchannel, getD_ifRead hevent, getD_ifRead hcreate,
      getD_ifRead hbuiltin, getD_ifRead hentries]

/-- The text spells the settings, in one of the many ways to do so. -/
def IsSpelledBy (s : Settings) (text : String) : Prop := ∃ j, TextOf text j ∧ LaidOut parts s j

/-- Valid settings are read from every text that spells them. -/
theorem ofJson_of_isSpelledBy {s : Settings} {text : String} (hvalid : s.validate = .ok s)
    (h : s.IsSpelledBy text) : ofJson text = .ok s := by
  obtain ⟨j, htext, hstands⟩ := h
  have hread : Reader.ofText record.read text = .ok s := reads.takes.ofText (by decide) htext hstands
  rw [ofJson, hread]
  exact hvalid

/-! ### A patchwork -/

/-- One resource, and a default that is not kept. -/
def patchwork : Settings := ⟨32, 9, true, true, [⟨"A", .color ⟨1, 2, 3, 255⟩⟩]⟩

namespace Patchwork

/-- The alpha of the color is left out, and it has a member that no one asks for. -/
def contentTexts : List (String × String) :=
  [("b", writeNat 3), ("y", quote "?"), ("g", writeNat 2), ("r", writeNat 1)]

/-- The content stands before its type. -/
def valueTexts : List (String × String) := [("value", writeObject contentTexts), ("type", quote "color")]

/-- A name and a value with half a surrogate pair each. -/
def halvesText : String := "\x7b\"\\ud800\":\"\\udc00\"\x7d"

/-- Three defaults are left out, and an unknown name comes twice. The entry is an array, and the name in it
is escaped. -/
def memberTexts : List (String × String) := [("x", writeArray [writeObject []]),
  ("event_capacity", writeNat 9), ("x", halvesText),
  ("application_resources", writeArray [writeArray ["\"\\u0041\"", writeObject valueTexts]])]

def text : String := " " ++ writeObject memberTexts ++ "\n"

def nat (n : Nat) : Json := .number ⟨false, Nat.toDigits 10 n, none, none⟩

def content : List (String × Json) :=
  [("b", nat 3), ("y", .string (.plain "?")), ("g", nat 2), ("r", nat 1)]

def value : List (String × Json) :=
  [("value", .object (.ofList content)), ("type", .string (.plain "color"))]

def entry : List Json := [.string (.plain "A"), .object (.ofList value)]

def halves : List (Quoted × Json) := [(.unpaired, .string .unpaired)]

def members : List (String × Json) :=
  [("x", .array (.ofList [.object (.ofList [])])), ("event_capacity", nat 9),
    ("x", .object (.ofQuoted halves)),
    ("application_resources", .array (.ofList [.array (.ofList entry)]))]

theorem stringText_half {h₁ h₂ h₃ h₄ : Char} {n : Nat} (hunit : hexUnit? h₁ h₂ h₃ h₄ = some n)
    (hhalf : isLeading n ∨ isTrailing n) : StringText ['"', '\\', 'u', h₁, h₂, h₃, h₄, '"'] .unpaired := by
  refine .unpaired (.unit hunit .nil) fun text h => ?_
  cases h with
  | unit hleading htrailing _ => simp [hleading, htrailing] at hhalf

theorem valueText_halves : ValueText halvesText.toList (.object (.ofQuoted halves)) := by
  have hname : StringText ['"', '\\', 'u', 'd', '8', '0', '0', '"'] .unpaired :=
    stringText_half (n := 0xD800) rfl (.inl rfl)
  have hvalue : ValueText ['"', '\\', 'u', 'd', 'c', '0', '0', '"'] (.string .unpaired) :=
    .leaf (.string (stringText_half (n := 0xDC00) rfl (.inr rfl)))
  have hmember := MemberText.mk hname blanks_nil blanks_nil hvalue
  exact .object (.full blanks_nil hmember (.closed blanks_nil))

theorem textOf : TextOf text (.object (.ofList members)) := by
  have hnat (n : Nat) : ValueText (writeNat n).toList (nat n) := .leaf (leafText_nat n)
  have hquote (s : String) : ValueText (quote s).toList (.string (.plain s)) :=
    .leaf (.string (stringText_quote s))
  have hspelled : Spelled [.unit 0x41] "A".toList := .unit rfl rfl .nil
  have hname : ValueText "\"\\u0041\"".toList (.string (.plain "A")) :=
    .leaf (.string (.plain (.unit rfl .nil) hspelled))
  have hcontent : ValueText (writeObject contentTexts).toList (.object (.ofList content)) :=
    valueText_writeObject (.cons ⟨rfl, hnat 3⟩ (.cons ⟨rfl, hquote "?"⟩
      (.cons ⟨rfl, hnat 2⟩ (.cons ⟨rfl, hnat 1⟩ .nil))))
  have hvalue : ValueText (writeObject valueTexts).toList (.object (.ofList value)) :=
    valueText_writeObject (.cons ⟨rfl, hcontent⟩ (.cons ⟨rfl, hquote "color"⟩ .nil))
  have hentry := valueText_writeArray (.cons hname (.cons hvalue .nil))
  have hentries := valueText_writeArray (.cons hentry .nil)
  have hspare := valueText_writeArray (.cons (valueText_writeObject .nil) .nil)
  have hmembers : ValueText (writeObject memberTexts).toList (.object (.ofList members)) :=
    valueText_writeObject (.cons ⟨rfl, hspare⟩ (.cons ⟨rfl, hnat 9⟩
      (.cons ⟨rfl, valueText_halves⟩ (.cons ⟨rfl, hentries⟩ .nil))))
  have hspace : Blanks [' '] := List.forall_mem_singleton.mpr rfl
  have hline : Blanks ['\n'] := List.forall_mem_singleton.mpr rfl
  refine .mk hspace hmembers hline ?_
  rw [text, String.toList_append, String.toList_append, List.append_assoc]
  rfl

theorem laidOut_content : LaidOut Color.parts (⟨1, 2, 3, 255⟩ : Color) (.object (.ofList content)) := by
  refine .object ?_ ?_
  · simp only [Color.parts, List.forall_mem_cons]
    exact ⟨.once rfl rfl, .once rfl rfl, .once rfl rfl, .missing rfl rfl, nofun⟩
  · simp only [SparesWhole, List.forall_mem_cons, content]
    exact ⟨fun _ => .number _, fun _ => .text _, fun _ => .number _, fun _ => .number _, nofun⟩

theorem stands_value : (Value.color ⟨1, 2, 3, 255⟩).Stands (.object (.ofList value)) := by
  refine .object rfl rfl laidOut_content (fun _ _ _ _ => ?_) ?_
  · have hnat (n : Nat) (h : n < UInt64.size) : (nat n).Keepable :=
      List.forall_mem_singleton.mpr ((real_nat h).elim fun _ => .number)
    have htext (s : String) : Keepable (.string (.plain s)) := List.forall_mem_singleton.mpr (.string s)
    refine keepable_object ?_
    simp only [content, List.forall_mem_cons]
    exact ⟨hnat 3 (by decide), htext "?", hnat 2 (by decide), hnat 1 (by decide), nofun⟩
  · simp only [SparesWhole, List.forall_mem_cons, value]
    exact ⟨fun h => absurd (by simp) h, fun h => absurd (by simp) h, List.forall_mem_nil _⟩

theorem laidOut : LaidOut parts patchwork (.object (.ofList members)) := by
  have hentry : LaidOut SeedEntry.parts ⟨"A", .color ⟨1, 2, 3, 255⟩⟩ (.array (.ofList entry)) :=
    .array (List.append_nil _).symm (.cons rfl (.cons stands_value .nil)) nofun
  refine .object ?_ ?_
  · simp only [parts, List.forall_mem_cons]
    exact ⟨.missing rfl rfl, .once rfl rfl, .missing rfl rfl, .missing rfl rfl,
      .once rfl ⟨_, rfl, .cons hentry .nil⟩, nofun⟩
  · simp only [SparesWhole, List.forall_mem_cons, members]
    exact ⟨fun _ => .array fun j hj => List.mem_singleton.mp hj ▸ .members nofun, fun _ => .number _,
      fun _ => .object (List.forall_mem_singleton.mpr .unpaired)
        (List.forall_mem_singleton.mpr (.string .unpaired)), fun h => absurd (by simp [parts]) h, nofun⟩

end Patchwork

theorem ofJson_patchwork : patchwork.validate = .ok patchwork ∧ patchwork.IsSpelledBy Patchwork.text ∧
    ofJson Patchwork.text = .ok patchwork := by
  have hspelled : patchwork.IsSpelledBy Patchwork.text := ⟨_, Patchwork.textOf, Patchwork.laidOut⟩
  exact ⟨rfl, hspelled, ofJson_of_isSpelledBy rfl hspelled⟩

/-! ### Spellings that are not read -/

/-- A number whose shortest text is read as its neighbour. -/
def skewed : Binary64 := ⟨0x3FB7A0D2DF1A67E0⟩

def lone (v : Value) : Settings := ⟨32, 64, true, true, [⟨"A", v⟩]⟩

/-- The value of the resource has these members. -/
def loneText (members : List (String × String)) : String :=
  writeObject [("application_resources",
    writeArray [writeObject [("name", quote "A"), ("value", writeObject members)]])]

/-- A color with an unknown member. -/
def spareText (text : String) : String :=
  writeObject [("r", writeNat 1), ("g", writeNat 2), ("b", writeNat 3), ("x", text)]

/-- Less than the largest number, but not by enough. -/
def brimText : String := "17976931348623157081e289"

def halfText : String := "\"\\ud800\""

/-- Since reading rounds in steps, it is not enough for a number to be written as the decimal that it is
nearest to, nor for the numbers in a content before its type to have a nearest number. Half a surrogate
pair may stand in a value that is skimmed, but neither in a name of a record nor in a content before its
type. -/
theorem spelling_matters :
    ((lone (.number skewed)).validate = .ok (lone (.number skewed)) ∧ skewed.isFinite ∧
      writeReal skewed = "0.09229772517065227" ∧
      (Decimal.mk false 9229772517065227 (-17)).nearestCode = skewed.code ∧
      ofJson (loneText [("type", quote "number"), ("value", "0.09229772517065227")]) ≠
        .ok (lone (.number skewed))) ∧
    ((lone (.color (.rgb 1 2 3))).validate = .ok (lone (.color (.rgb 1 2 3))) ∧
      (Decimal.mk false 17976931348623157081 289).nearestCode < Binary64.infinityCode ∧
      ∀ text ∈ [brimText, halfText],
        ofJson (loneText [("type", quote "color"), ("value", spareText text)]) =
          .ok (lone (.color (.rgb 1 2 3))) ∧
        ofJson (loneText [("value", spareText text), ("type", quote "color")]) ≠
          .ok (lone (.color (.rgb 1 2 3)))) ∧
    (default.validate = .ok default ∧ ofJson (writeObject [("x", halfText)]) = .ok default ∧
      ofJson ("\x7b" ++ halfText ++ ":0\x7d") ≠ .ok default) := by
  decide +kernel

end Settings

end ScopedResources
