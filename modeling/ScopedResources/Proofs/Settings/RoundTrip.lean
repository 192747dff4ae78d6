import ScopedResources.Proofs.Json.ReadsBack
import ScopedResources.Proofs.Json.Yields
import ScopedResources.Settings.Json

/-! # Settings that are written and read

Settings that are written are read back as they were, bit for bit, if the numbers in them come back.
What is read from any text is valid and holds finite numbers only, so it can be written and read
again. -/

namespace ScopedResources

open Json

/-! ## Colors -/

theorem readsBack_channel (n : UInt8) : ReadsBack readChannel 0 (writeChannel n) n := by
  have hnat := readsBack_nat n.toNat_lt (by decide : UInt8.size ≤ UInt64.size)
  have hchannel := hnat.thenReturn UInt8.ofNat
  rwa [UInt8.ofNat_toNat] at hchannel

theorem Color.readsBack (c : Color) : ReadsBack Color.record.read 1 c.write c :=
  Record.readsBack (.cons rfl rfl (Record.readsBack_field _ (readsBack_channel c.red))
    (.cons rfl rfl (Record.readsBack_field _ (readsBack_channel c.green))
      (.cons rfl rfl (Record.readsBack_field _ (readsBack_channel c.blue))
        (.cons rfl rfl (Record.readsBack_field _ (readsBack_channel c.alpha)) .nil)))) rfl

/-! ## Values -/

theorem SolidBrush.readsBack (b : SolidBrush) : ReadsBack SolidBrush.record.read 2 b.write b :=
  Record.readsBack (.cons rfl rfl (Record.readsBack_field _ b.color.readsBack) .nil) rfl

/-- The number is finite and, unless it is a zero, comes back. -/
structure Binary64.IsSafe (x : Binary64) : Prop where
  isFinite : x.isFinite
  comesBack : x.code ≠ 0 → x.ComesBack

theorem Binary64.IsSafe.readsBack {x : Binary64} (h : x.IsSafe) : ReadsBack readReal 0 (writeReal x) x := by
  refine readsBack_real ?_ h.isFinite
  by_cases hzero : x.code = 0
  · exact comesBack_of_code_eq_zero hzero
  · exact h.comesBack hzero

theorem GradientStop.readsBack {s : GradientStop} (h : s.offset.IsSafe) :
    ReadsBack GradientStop.record.read 2 s.write s :=
  Record.readsBack (.cons rfl rfl (Record.readsBack_field _ s.color.readsBack)
    (.cons rfl rfl (Record.readsBack_field _ (h.readsBack.mono (Nat.zero_le 1))) .nil)) rfl

theorem GradientBrush.readsBack {b : GradientBrush} (h : ∀ s ∈ b.stops, s.offset.IsSafe) :
    ReadsBack GradientBrush.record.read 4 b.write b :=
  Record.readsBack (.cons rfl rfl
    (Record.readsBack_field _ (readsBack_list fun s hs => GradientStop.readsBack (h s hs))) .nil) rfl

namespace Value

/-- The numbers in a value. -/
def numbers : Value → List Binary64
  | gradientBrush b => b.stops.map (·.offset)
  | number x => [x]
  | _ => []

theorem readsBack_content {v : Value} (h : ∀ x ∈ v.numbers, x.IsSafe) :
    ReadsBack (readContent v.kind) 4 v.writeContent v := by
  cases v with
  | color c => exact (c.readsBack.map color).mono (by omega)
  | solidBrush b => exact (b.readsBack.map solidBrush).mono (by omega)
  | gradientBrush b =>
    have hstops : ∀ s ∈ b.stops, s.offset.IsSafe := fun s hs =>
      h s.offset (List.mem_map_of_mem hs)
    exact (GradientBrush.readsBack hstops).map gradientBrush
  | text s => exact ((readsBack_text s).map text).mono (by omega)
  | number x => exact ((h x List.mem_cons_self).readsBack.map number).mono (by omega)
  | flag b => exact ((readsBack_bool b).map flag).mono (by omega)

theorem readsBack {v : Value} (h : ∀ x ∈ v.numbers, x.IsSafe) : ReadsBack reader 5 v.write v := by
  have hkind : tagged.kinds.lookup v.kind.name = some v.kind := by cases v <;> rfl
  exact Tagged.readsBack (by decide) hkind (readsBack_content h)

end Value

/-! ## Settings -/

theorem SeedEntry.readsBack {e : SeedEntry} (h : ∀ x ∈ e.value.numbers, x.IsSafe) :
    ReadsBack SeedEntry.record.read 6 e.write e :=
  Record.readsBack (.cons rfl rfl (Record.readsBack_field _ ((readsBack_text e.name).mono (by omega)))
    (.cons rfl rfl (Record.readsBack_field _ (Value.readsBack h)) .nil)) rfl

namespace Settings

def numbers (s : Settings) : List Binary64 := s.applicationResources.flatMap (·.value.numbers)

theorem readsBack_capacity (n : UInt64) : ReadsBack readCapacity 0 (writeNat n.toNat) n := by
  have hnat := readsBack_nat n.toNat_lt (Nat.le_refl UInt64.size)
  have hcapacity := hnat.thenReturn UInt64.ofNat
  rwa [UInt64.ofNat_toNat] at hcapacity

theorem readsBack {s : Settings} (h : ∀ x ∈ s.numbers, x.IsSafe) :
    ReadsBack record.read 8 s.write s := by
  have hentry : ∀ e ∈ s.applicationResources, ReadsBack SeedEntry.record.read 6 e.write e :=
    fun e he => SeedEntry.readsBack fun x hx => h x (List.mem_flatMap.mpr ⟨e, he, hx⟩)
  have hchannel := (readsBack_capacity s.channelCapacity).mono (Nat.zero_le 7)
  have hevent := (readsBack_capacity s.eventCapacity).mono (Nat.zero_le 7)
  have hcreate := (readsBack_bool s.canCreateResources).mono (Nat.zero_le 7)
  have hbuiltin := (readsBack_bool s.includeBuiltinSeed).mono (Nat.zero_le 7)
  exact Record.readsBack (.cons rfl rfl (Record.readsBack_field _ hchannel)
    (.cons rfl rfl (Record.readsBack_field _ hevent)
      (.cons rfl rfl (Record.readsBack_field _ hcreate)
        (.cons rfl rfl (Record.readsBack_field _ hbuiltin)
          (.cons rfl rfl (Record.readsBack_field _ (readsBack_list hentry)) .nil))))) rfl

theorem validate_eq_ok {s t : Settings} (h : s.validate = .ok t) : t = s := by
  unfold validate at h
  split at h
  · cases h
  split at h
  · cases h
  · exact (Except.ok.inj h).symm

theorem ofJson_write {s : Settings} (hvalid : s.validate = .ok s) (h : ∀ x ∈ s.numbers, x.IsSafe) :
    ofJson s.write = .ok s := by
  rw [ofJson, (readsBack h).ofText (by decide)]
  exact hvalid

end Settings

/-! ## What is read -/

/-- The offset, as soon as there is one, is finite. -/
def GradientStop.Draft.IsFinite (d : GradientStop.Draft) : Prop := ∀ x ∈ d.offset, x.isFinite

theorem GradientStop.yields : Yields GradientStop.record.read fun s => s.offset.isFinite := by
  refine Record.yields Draft.IsFinite nofun ?_ fun d s hs hd => ?_
  · refine List.forall_mem_cons.mpr ⟨Field.keeps_of_put fun _ _ hd => hd, ?_⟩
    exact List.forall_mem_singleton.mpr (Field.keeps_own yields_real fun _ _ => rfl)
  · obtain ⟨color, offset⟩ := d
    cases color <;> cases offset <;> cases hs
    exact hd _ rfl

def GradientBrush.Draft.IsFinite (d : GradientBrush.Draft) : Prop :=
  ∀ stops ∈ d.stops, ∀ s ∈ stops, s.offset.isFinite

theorem GradientBrush.yields :
    Yields GradientBrush.record.read fun b => ∀ s ∈ b.stops, s.offset.isFinite := by
  refine Record.yields Draft.IsFinite nofun ?_ fun d b hb hd => ?_
  · exact List.forall_mem_singleton.mpr
      (Field.keeps_own GradientStop.yields.list fun _ _ => rfl)
  · obtain ⟨stops⟩ := d
    cases stops <;> cases hb
    exact hd _ rfl

/-- All numbers in a value that is read are finite. -/
theorem Value.yields : Yields Value.reader fun v => ∀ x ∈ v.numbers, x.isFinite := by
  refine Tagged.yields fun kind => ?_
  cases kind with
  | color => exact (yields_true Color.record.read).map fun c _ => nofun
  | solidBrush => exact (yields_true SolidBrush.record.read).map fun b _ => nofun
  | gradientBrush => exact GradientBrush.yields.map fun b hb => List.forall_mem_map.mpr hb
  | text => exact (yields_true readString).map fun s _ => nofun
  | number => exact yields_real.map fun x hx => List.forall_mem_singleton.mpr hx
  | flag => exact (yields_true readBool).map fun b _ => nofun

def SeedEntry.Draft.IsFinite (d : SeedEntry.Draft) : Prop :=
  ∀ v ∈ d.value, ∀ x ∈ v.numbers, x.isFinite

theorem SeedEntry.yields :
    Yields SeedEntry.record.read fun e => ∀ x ∈ e.value.numbers, x.isFinite := by
  refine Record.yields Draft.IsFinite nofun ?_ fun d e he hd => ?_
  · refine List.forall_mem_cons.mpr ⟨Field.keeps_of_put fun _ _ hd => hd, ?_⟩
    exact List.forall_mem_singleton.mpr (Field.keeps_own Value.yields fun _ _ => rfl)
  · obtain ⟨name, value⟩ := d
    cases name <;> cases value <;> cases he
    exact hd _ rfl

namespace Settings

def Draft.IsFinite (d : Draft) : Prop :=
  ∀ entries ∈ d.applicationResources, ∀ e ∈ entries, ∀ x ∈ e.value.numbers, x.isFinite

theorem yields : Yields record.read fun s => ∀ x ∈ s.numbers, x.isFinite := by
  refine Record.yields Draft.IsFinite nofun ?_ fun d s hs hd => ?_
  · refine List.forall_mem_cons.mpr ⟨Field.keeps_of_put fun _ _ hd => hd, ?_⟩
    refine List.forall_mem_cons.mpr ⟨Field.keeps_of_put fun _ _ hd => hd, ?_⟩
    refine List.forall_mem_cons.mpr ⟨Field.keeps_of_put fun _ _ hd => hd, ?_⟩
    refine List.forall_mem_cons.mpr ⟨Field.keeps_of_put fun _ _ hd => hd, ?_⟩
    exact List.forall_mem_singleton.mpr (Field.keeps_own SeedEntry.yields.list fun _ _ => rfl)
  · cases hs
    intro x hx
    obtain ⟨e, he, hx⟩ := List.mem_flatMap.mp hx
    cases hentries : d.applicationResources with
    | none =>
      rw [hentries] at he
      cases he
    | some entries =>
      rw [hentries] at he
      exact hd entries hentries e he x hx

theorem ofJson_eq_ok {text : String} {s : Settings} (h : ofJson text = .ok s) :
    s.validate = .ok s ∧ ∀ x ∈ s.numbers, x.isFinite := by
  unfold ofJson at h
  split at h
  · next t ht =>
    obtain rfl := validate_eq_ok h
    unfold Reader.ofText at ht
    obtain ⟨u, hu, ht⟩ := of_bind_eq_ok ht
    refine ⟨h, ?_⟩
    split at ht
    · split at ht
      · cases ht
        exact yields hu
      · cases ht
    · cases ht
  · cases h

/-- Valid settings in which all numbers are finite are read as they were written, down to the bits of
their numbers and whatever is in their texts, provided that reading gives back the numbers other than
zero that they hold. All settings that are read from any text are of this kind. -/
theorem write_is_lossless :
    (∀ s : Settings, s.validate = .ok s → (∀ x ∈ s.numbers, x.isFinite) →
      (∀ x ∈ s.numbers, x.code ≠ 0 → x.ComesBack) → ofJson s.write = .ok s) ∧
    ∀ text s, ofJson text = .ok s → s.validate = .ok s ∧ (∀ x ∈ s.numbers, x.isFinite) ∧
      ((∀ x ∈ s.numbers, x.code ≠ 0 → x.ComesBack) → ofJson s.write = .ok s) := by
  refine ⟨fun s hvalid hfinite hback => ?_, fun text s h => ?_⟩
  · exact ofJson_write hvalid fun x hx => ⟨hfinite x hx, hback x hx⟩
  · obtain ⟨hvalid, hfinite⟩ := ofJson_eq_ok h
    exact ⟨hvalid, hfinite, fun hback => ofJson_write hvalid fun x hx => ⟨hfinite x hx, hback x hx⟩⟩

/-- Settings with the largest capacity, texts that have to be escaped, a negative zero and a tenth. -/
def motley : Settings := ⟨1, 0xFFFFFFFFFFFFFFFF, false, true, [
  ⟨"Accent \"1\"\t", .color ⟨1, 22, 255, 128⟩⟩,
  ⟨"Fade", .gradientBrush ⟨[⟨.rgb 0 0 0, ⟨0x8000000000000000⟩⟩, ⟨.rgb 9 9 9, ⟨0x3FE0000000000000⟩⟩]⟩⟩,
  ⟨"π", .text "😀\u0001\\"⟩,
  ⟨"Ratio", .number ⟨0x3FB999999999999A⟩⟩]⟩

theorem write_is_lossless_motley : ofJson motley.write = .ok motley :=
  write_is_lossless.1 motley rfl (by decide) (by decide +kernel)

end Settings

end ScopedResources
