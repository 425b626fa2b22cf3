import Piezo.Proofs.JsonText
import Piezo.Settings.Json

/-!
Settings written and read again: reading the text of settings gives them back, or the fault for
which they are refused, and whatever is read is valid.
-/

namespace Piezo

namespace Json

theorem writable_ofNat (n : Nat) : Writable (ofNat n) := .number (isNumeral_chars n)

theorem natUpTo?_ofNat {n bound : Nat} (h : n ≤ bound) : natUpTo? bound (ofNat n) = some n := by
  simp [natUpTo?, ofNat, Text.Decimal.digits?_chars, h]

theorem word32?_ofNat (w : UInt32) : word32? (ofNat w.toNat) = some w := by
  have := w.toNat_lt
  rw [word32?, natUpTo?_ofNat (by rw [UInt32.size]; omega), Option.map_some, UInt32.ofNat_toNat]

theorem word64?_ofNat (w : UInt64) : word64? (ofNat w.toNat) = some w := by
  have := w.toNat_lt
  rw [word64?, natUpTo?_ofNat (by rw [UInt64.size]; omega), Option.map_some, UInt64.ofNat_toNat]

end Json

theorem FrequencyRange.ofJson?_toJson (r : FrequencyRange) : ofJson? r.toJson = some r := by
  simp [ofJson?, toJson, Json.record?, Json.named, fields, Json.orElse, Json.word32?_ofNat]

theorem Limits.ofJson?_toJson (l : Limits) : ofJson? l.toJson = some l := by
  simp [ofJson?, toJson, Json.record?, Json.named, fields, Json.orElse, Json.word64?_ofNat]

namespace Settings

open Json

theorem ofJson?_toJson (s : Settings) : ofJson? s.toJson = some s := by
  simp [ofJson?, toJson, record?, named, fields, orElse, word32?_ofNat,
    FrequencyRange.ofJson?_toJson, Limits.ofJson?_toJson]

theorem writable_toJson (s : Settings) : Writable s.toJson := by
  refine .object fun member hm => ?_
  simp only [List.mem_cons, List.not_mem_nil, or_false] at hm
  rcases hm with rfl | rfl | rfl | rfl
  · exact .object (by simp [writable_ofNat])
  · exact writable_ofNat _
  · exact writable_ofNat _
  · exact .object (by simp [writable_ofNat])

/-- What is read from the text of settings is the settings, unless they are at fault. -/
theorem read_written (s : Settings) : read s.text = s.validate.map fun _ => s := by
  rw [read, text, s.writable_toJson.spells_text.read?, Option.bind_some, ofJson?_toJson]

/-- Whatever is read is valid. -/
theorem validate_of_read {text : String} {s : Settings} (h : read text = .ok s) :
    s.validate = .ok () := by
  unfold read at h
  split at h
  · cases h
  · next settings hr =>
    cases hv : settings.validate with
    | error error => simp [hv, Except.map] at h
    | ok done =>
      simp only [hv, Except.map, Except.ok.injEq] at h
      exact h ▸ hv

/-- Settings of any values are written to a text that is read as the same settings if they are
valid, and is refused for their own fault if not. Settings read from any text are valid, and survive
being written and read again. -/
theorem survives_text :
    (∀ s : Settings, (s.validate = .ok () → read s.text = .ok s) ∧
        ∀ error, s.validate = .error error → read s.text = .error error) ∧
      ∀ (text : String) (s : Settings), read text = .ok s →
        s.validate = .ok () ∧ read s.text = .ok s := by
  have valid (s : Settings) (h : s.validate = .ok ()) : read s.text = .ok s := by
    rw [read_written, h]
    rfl
  refine ⟨fun s => ⟨valid s, fun error h => ?_⟩, fun text s h => ?_⟩
  · rw [read_written, h]
    rfl
  · exact ⟨validate_of_read h, valid s (validate_of_read h)⟩

/-- Settings at the ends of what their fields may hold, an empty range, and a text that leaves
fields out, names them in another order and has a member of its own. -/
theorem survives_text_at_limits :
    let most : Settings :=
      ⟨⟨4294967295, 4294967295⟩, 4294967295, 4294967295, ⟨18446744073709551615, 65536⟩⟩
    let empty : Settings := ⟨⟨500, 100⟩, 0, 0, ⟨0, 18446744073709551615⟩⟩
    let partly :=
      "\x7b\"parser\": [8], \"x\": [1.5e3, \"\\u00e9\"], \"settle_margin_ms\": 10\x7d"
    let some : Settings := { settleMargin := 10, limits := { notes := 8 } }
    most.validate = .ok () ∧ read most.text = .ok most ∧
      empty.validate = .error (.settings (.emptyRange 500 100)) ∧
      read empty.text = .error (.settings (.emptyRange 500 100)) ∧
      read partly = .ok some ∧ read some.text = .ok some := by
  intro most empty partly some
  have valid : most.validate = .ok () := by decide
  have fault : empty.validate = .error (.settings (.emptyRange 500 100)) := by decide
  have reads : read partly = .ok some := by decide
  obtain ⟨written, readAgain⟩ := survives_text
  exact ⟨valid, (written most).1 valid, fault, (written empty).2 _ fault, reads,
    (readAgain partly some reads).2⟩

end Settings

end Piezo
