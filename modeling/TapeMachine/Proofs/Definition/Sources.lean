import TapeMachine.Definition.File
import TapeMachine.Proofs.Definition.KeptRules
import TapeMachine.Proofs.Files.Reading

/-!
Definitions read from files and from inputs. A file is refused by its size before its bytes are
looked at, and an input once its beginning, which may end within a character, has been read as text.
Still both refuse the same bytes, and what is left they read as the same text.
-/

namespace TapeMachine

open Source

/-! Bytes. -/

theorem decodeText_toUTF8 (text : String) : decodeText text.toUTF8 = .ok text := by
  rw [decodeText, String.fromUTF8?, String.toUTF8_eq_toByteArray, dif_pos text.isValidUTF8]
  rfl

theorem decodeText_of_not_isValidUTF8 {bytes : ByteArray} (h : ¬ bytes.IsValidUTF8) :
    decodeText bytes = .error .invalidText := by
  rw [decodeText, String.fromUTF8?, dif_neg h]

/-- The beginning of few bytes is all of them. -/
theorem extract_of_size_le {bytes : ByteArray} {limit : Nat} (h : bytes.size ≤ limit) :
    bytes.extract 0 limit = bytes := by
  apply ByteArray.ext
  rw [ByteArray.data_extract]
  exact Array.extract_eq_self_of_le h

/-- More bytes than a definition may have, or bytes that are no text. -/
def IsRefused (bytes : ByteArray) : Prop :=
  maxDefinitionSize < bytes.size ∨ ¬ bytes.IsValidUTF8

theorem exists_text_of_not_isRefused {bytes : ByteArray} (h : ¬ IsRefused bytes) :
    ∃ text : String, text.toUTF8 = bytes ∧ text.utf8ByteSize ≤ maxDefinitionSize := by
  rw [IsRefused, not_or, Nat.not_lt, not_not] at h
  exact ⟨⟨bytes, h.2⟩, rfl, h.1⟩

/-! The two ways. -/

section Ways

variable {bytes : ByteArray} {text : String}

theorem inputText_of_decoded
    (h : decodeText (bytes.extract 0 (maxDefinitionSize + 1)) = .ok text) :
    inputText (.ok bytes) =
      if maxDefinitionSize < text.utf8ByteSize then .error (.file .oversizedInput) else .ok text := by
  rw [inputText, Except.mapError, ok_bind, h, Except.mapError, ok_bind]
  dsimp only
  split <;> rfl

theorem inputText_toUTF8 (h : text.utf8ByteSize ≤ maxDefinitionSize) :
    inputText (.ok text.toUTF8) = .ok text := by
  have hwhole : text.toUTF8.extract 0 (maxDefinitionSize + 1) = text.toUTF8 :=
    extract_of_size_le (Nat.le_succ_of_le h)
  have hdecoded := decodeText_toUTF8 text
  rw [← hwhole] at hdecoded
  rw [inputText_of_decoded hdecoded, if_neg (Nat.not_lt.2 h)]

/-- The bytes that are read are no text, or more than a definition may have. -/
theorem inputText_of_isRefused (h : IsRefused bytes) :
    ∃ fault, inputText (.ok bytes) = .error (.file fault) := by
  by_cases hvalid : (bytes.extract 0 (maxDefinitionSize + 1)).IsValidUTF8
  · have hlong : maxDefinitionSize < bytes.size := by
      by_contra hle
      rw [extract_of_size_le (Nat.le_succ_of_le (Nat.not_lt.1 hle))] at hvalid
      exact h.elim hle (· hvalid)
    have hsize : maxDefinitionSize < (bytes.extract 0 (maxDefinitionSize + 1)).size := by
      rw [ByteArray.size_extract]
      omega
    refine ⟨.oversizedInput, ?_⟩
    rw [inputText_of_decoded (decodeText_toUTF8 ⟨_, hvalid⟩)]
    exact if_pos hsize
  · refine ⟨.unreadableInput .invalidText, ?_⟩
    rw [inputText, Except.mapError, ok_bind, decodeText_of_not_isValidUTF8 hvalid]
    rfl

theorem ofFile_eq_ite (path : String) (bytes : ByteArray) :
    Definition.ofFile path (.ok bytes) =
      if maxDefinitionSize < bytes.size then .error (.file (.oversized path))
      else (fileText path (.ok bytes) >>= Definition.ofText).map (·.orNamed path) := by
  rw [Definition.ofFile, Except.mapError, ok_bind]
  dsimp only
  split
  · rfl
  · cases fileText path (.ok bytes) with
    | error fault => rfl
    | ok text =>
        rw [ok_bind, ok_bind]
        cases Definition.ofText text <;> rfl

theorem ofFile_toUTF8 (h : text.utf8ByteSize ≤ maxDefinitionSize) (path : String) :
    Definition.ofFile path (.ok text.toUTF8) = (Definition.ofText text).map (·.orNamed path) := by
  have hle : ¬ maxDefinitionSize < text.toUTF8.size := Nat.not_lt.2 h
  rw [ofFile_eq_ite, if_neg hle, fileText, ok_bind, decodeText_toUTF8, Except.mapError, ok_bind]

theorem ofFile_of_isRefused (h : IsRefused bytes) (path : String) :
    ∃ fault, Definition.ofFile path (.ok bytes) = .error (.file fault) := by
  rw [ofFile_eq_ite]
  by_cases hlong : maxDefinitionSize < bytes.size
  · exact ⟨.oversized path, if_pos hlong⟩
  · refine ⟨.unreadable path .invalidText, ?_⟩
    have hinvalid : ¬ bytes.IsValidUTF8 := h.resolve_left hlong
    rw [if_neg hlong, fileText, ok_bind, decodeText_of_not_isValidUTF8 hinvalid]
    rfl

end Ways

/-! The definition. -/

namespace Definition

/-- Nothing about files is wrong with a text. -/
theorem ofText_ne_file {text : String} {fault : FileFault} :
    ofText text ≠ .error (.file fault) := by
  intro h
  rw [ofText, ofCharacters] at h
  cases hdocument : Document.ofCharacters text.toList with
  | error error =>
      rw [hdocument] at h
      cases h
  | ok document =>
      rw [hdocument, Except.mapError, ok_bind] at h
      cases hheaders : Headers.ofNodes text.toList document.headers with
      | error error =>
          rw [hheaders] at h
          cases h
      | ok headers =>
          rw [hheaders, Except.mapError, ok_bind] at h
          cases hformed : ofHeaders headers document.rules <;>
            · rw [hformed] at h
              cases h

theorem orNamed_eq (definition : Definition) (path : String) :
    definition.orNamed path =
      { definition with name := definition.name.or (Files.stem? path) } := by
  rcases definition with ⟨name, input, initial, finals, blank, rules⟩
  rw [orNamed]
  cases name with
  | none => cases Files.stem? path <;> rfl
  | some name => rfl

theorem name_named (definition : Definition) (name : Option String) :
    (definition.named name).name =
      ((name.map Text.trimmed).filter (!·.isEmpty)).or definition.name := by
  rw [named]
  split
  · next hnone => rw [hnone]; rfl
  · next hsome =>
      rw [hsome]
      split
      · next hempty =>
          rw [Option.filter_some, hempty]
          rfl
      · next hempty =>
          rw [Bool.not_eq_true] at hempty
          rw [Option.filter_some, hempty]
          rfl

theorem eq_ofPlaced_of_ofNodes {text : List Char} {headers : List (Placed HeaderText)}
    {given : Headers} (h : Headers.ofNodes text (headerNodes headers) = .ok given) :
    given = .ofPlaced headers := by
  rcases faultless_or_firstHeaderFault headers with hfaultless | ⟨header, cause, hfault⟩
  · rw [Headers.ofNodes_of_faultless hfaultless] at h
    exact (Except.ok.inj h).symm
  · rw [Headers.ofNodes_of_firstHeaderFault hfault] at h
    cases h

/-- A text names its definition when it has a header for the name that is not blank. -/
theorem name_of_ofText {text : String} {definition : Definition}
    (h : ofText text = .ok definition) :
    ∃ headers rules, Layout (linesFrom 0 text.toList) headers rules ∧
      definition.name = ((headerValue? headers .name).map Text.trimmed).filter (!·.isEmpty) := by
  cases hread : Document.ofCharacters text.toList with
  | error error =>
      rw [ofText, ofCharacters_of_error hread] at h
      cases h
  | ok document =>
      obtain ⟨headers, rules, hlayout, rfl⟩ := layout_of_ofCharacters hread
      refine ⟨headers, rules, hlayout, ?_⟩
      rw [ofText, ofCharacters_of_ok hread, bind_eq_ok] at h
      obtain ⟨given, hgiven, hformed⟩ := h
      obtain rfl := eq_ofPlaced_of_ofNodes (mapError_eq_ok.1 hgiven)
      rw [ofHeaders_eq_map, mapError_map_eq_ok] at hformed
      obtain ⟨formed, hfields, rfl⟩ := hformed
      obtain ⟨-, -, blank, -, rfl⟩ := ofFields_eq_ok_iff.1 hfields
      rw [name_named, Headers.value?_ofPlaced, Option.or_none]

/-- A definition is read from the bytes of a file exactly when it is read from them as an input, and
then they differ in the name at most: a text that names no machine takes its name from the path,
which ends in a name wherever a file can be read. Both ways refuse just the bytes that are too many
or no text for what they are, and all others for the same fault of the text. -/
theorem ofFile_agrees (path : String) (bytes : ByteArray) :
    ((∃ fault, ofFile path (.ok bytes) = .error (.file fault)) ↔ IsRefused bytes) ∧
      ((∃ fault, inputText (.ok bytes) >>= ofText = .error (.file fault)) ↔ IsRefused bytes) ∧
      (∀ fault, (∀ problem, fault ≠ .file problem) →
        (ofFile path (.ok bytes) = .error fault ↔
          inputText (.ok bytes) >>= ofText = .error fault)) ∧
      (∀ definition, ofFile path (.ok bytes) = .ok definition ↔
        ∃ own, inputText (.ok bytes) >>= ofText = .ok own ∧
          definition = { own with name := own.name.or (Files.stem? path) }) ∧
      (∀ own, inputText (.ok bytes) >>= ofText = .ok own →
        ∃ (text : String) (headers : _) (rules : _),
          text.toUTF8 = bytes ∧ Layout (linesFrom 0 text.toList) headers rules ∧
          own.name = ((headerValue? headers .name).map Text.trimmed).filter (!·.isEmpty)) ∧
      ∀ tree : Files.Tree, tree.IsRooted → tree.read path = .ok bytes →
        ∃ stem, Files.stem? path = some stem := by
  have hstem (tree : Files.Tree) (hrooted : tree.IsRooted) (hread : tree.read path = .ok bytes) :
      ∃ stem, Files.stem? path = some stem := by
    obtain ⟨name, hname⟩ := Files.Tree.fileName?_of_read hrooted hread
    exact ⟨Files.stem name, by rw [Files.stem?, hname, Option.map_some]⟩
  by_cases hrefused : IsRefused bytes
  · obtain ⟨fileFault, hfile⟩ := ofFile_of_isRefused hrefused path
    obtain ⟨inputFault, hinput⟩ := inputText_of_isRefused hrefused
    have hread : inputText (.ok bytes) >>= ofText = .error (.file inputFault) := by
      rw [hinput]
      rfl
    rw [hfile, hread]
    refine ⟨iff_of_true ⟨_, rfl⟩ hrefused, iff_of_true ⟨_, rfl⟩ hrefused, fun fault hother => ?_,
      fun definition => iff_of_false nofun nofun, nofun, hstem⟩
    exact iff_of_false (fun heq => hother _ (Except.error.inj heq).symm)
      fun heq => hother _ (Except.error.inj heq).symm
  · obtain ⟨text, rfl, hsize⟩ := exists_text_of_not_isRefused hrefused
    rw [ofFile_toUTF8 hsize, inputText_toUTF8 hsize, ok_bind]
    refine ⟨iff_of_false ?_ hrefused, iff_of_false ?_ hrefused, fun fault _ => map_eq_error,
      fun definition => ?_, fun own hown => ?_, hstem⟩
    · rintro ⟨fault, hfault⟩
      exact ofText_ne_file (map_eq_error.1 hfault)
    · rintro ⟨fault, hfault⟩
      exact ofText_ne_file hfault
    · rw [map_eq_ok]
      refine exists_congr fun own => and_congr_right fun _ => ?_
      rw [orNamed_eq, eq_comm]
    · obtain ⟨headers, rules, hlayout, hname⟩ := name_of_ofText hown
      exact ⟨text, headers, rules, rfl, hlayout, hname⟩

end Definition

end TapeMachine
