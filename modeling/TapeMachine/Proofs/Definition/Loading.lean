import TapeMachine.Proofs.Bind
import TapeMachine.Proofs.Definition.Document

/-!
Loading definitions. The headers of a document are taken in one by one. The first whose key is
unknown or whose field another header has set is refused at its place, and without such a header
each field has the value of the header that names it.
-/

namespace TapeMachine

open Source Grammar

/-- The keys of the headers that set a field. -/
def Slot.keys : Slot → List String
  | name => ["name"]
  | input => ["input", "tape"]
  | initial => ["initial"]
  | finals => ["final", "finals"]
  | blank => ["blank"]

theorem Slot.ofKey_eq_some {key : String} {slot : Slot} :
    ofKey key = some slot ↔ key ∈ slot.keys := by
  constructor
  · intro h
    unfold ofKey at h
    split at h <;> cases h <;> decide
  · intro h
    cases slot <;> simp only [keys, List.mem_cons, List.not_mem_nil, or_false] at h
    case input | finals => rcases h with rfl | rfl <;> rfl
    all_goals subst h; rfl

namespace Source

def HeaderText.keyName (header : HeaderText) : String :=
  String.ofList header.key.1

def HeaderText.valueText (header : HeaderText) : String :=
  String.ofList header.value.1

/-- What is wrong with a header after earlier ones: no field has its key, or one of them has set the
field. -/
inductive HeaderFault (earlier : List (Placed HeaderText)) (header : HeaderText) : Cause → Prop where
  | unknown (hkey : ∀ slot : Slot, header.keyName ∉ slot.keys) :
      HeaderFault earlier header (.unknownHeader header.keyName)
  | repeated {slot : Slot} {other : Placed HeaderText} (hkey : header.keyName ∈ slot.keys)
      (hmem : other ∈ earlier) (hother : other.part.keyName ∈ slot.keys) :
      HeaderFault earlier header (.repeatedHeader header.keyName)

/-- Nothing is wrong with any of the headers. -/
def Faultless (headers : List (Placed HeaderText)) : Prop :=
  ∀ earlier header later cause, headers = earlier ++ header :: later →
    ¬ HeaderFault earlier header.part cause

/-- The first header with which something is wrong. -/
def FirstHeaderFault (headers : List (Placed HeaderText)) (header : Placed HeaderText)
    (cause : Cause) : Prop :=
  ∃ earlier later, headers = earlier ++ header :: later ∧ Faultless earlier ∧
    HeaderFault earlier header.part cause

/-- The value of the header that sets a field, or nothing. -/
def headerValue? (headers : List (Placed HeaderText)) (slot : Slot) : Option String :=
  (headers.find? (·.part.keyName ∈ slot.keys)).map (·.part.valueText)

theorem Faultless.of_append {earlier later : List (Placed HeaderText)}
    (h : Faultless (earlier ++ later)) : Faultless earlier := by
  intro before header after cause heq
  exact h before header (after ++ later) cause (by rw [heq, List.append_assoc, List.cons_append])

theorem faultless_nil : Faultless [] := by
  intro earlier header later cause heq
  cases earlier <;> contradiction

theorem Faultless.concat {headers : List (Placed HeaderText)} {header : Placed HeaderText}
    (h : Faultless headers) (hnone : ¬ ∃ cause, HeaderFault headers header.part cause) :
    Faultless (headers ++ [header]) := by
  intro earlier other later cause heq hfault
  rcases List.eq_nil_or_concat later with rfl | ⟨before, last, rfl⟩
  · obtain ⟨rfl, hlast⟩ := List.append_inj' heq rfl
    cases hlast
    exact hnone ⟨cause, hfault⟩
  · have hsplit : headers ++ [header] = (earlier ++ other :: before) ++ [last] := by
      rw [heq, List.concat_eq_append, List.append_assoc, List.cons_append]
    obtain ⟨rfl, -⟩ := List.append_inj' hsplit rfl
    exact h earlier other before cause rfl hfault

theorem Faultless.last {headers : List (Placed HeaderText)} {header : Placed HeaderText}
    (h : Faultless (headers ++ [header])) : ¬ ∃ cause, HeaderFault headers header.part cause :=
  fun ⟨cause, hfault⟩ => h headers header [] cause rfl hfault

/-- Of the headers none is at fault, or one is the first. -/
theorem faultless_or_firstHeaderFault (headers : List (Placed HeaderText)) :
    Faultless headers ∨ ∃ header cause, FirstHeaderFault headers header cause := by
  induction headers using List.reverseRecOn with
  | nil => exact .inl faultless_nil
  | append_singleton headers header ih =>
      rcases ih with hfaultless | ⟨other, cause, earlier, later, rfl, hearlier, hfault⟩
      · by_cases hfault : ∃ cause, HeaderFault headers header.part cause
        · obtain ⟨cause, hfault⟩ := hfault
          exact .inr ⟨header, cause, headers, [], rfl, hfaultless, hfault⟩
        · exact .inl (hfaultless.concat hfault)
      · exact .inr ⟨other, cause, earlier, later ++ [header], by simp, hearlier, hfault⟩

end Source

/-! Taking in the headers. -/

namespace Headers

/-- What is kept of headers that were taken in. -/
def ofPlaced (headers : List (Placed HeaderText)) : Headers :=
  headers.filterMap fun header =>
    (Slot.ofKey header.part.keyName).map fun slot => (slot, header.part.valueText)

theorem value?_ofPlaced (headers : List (Placed HeaderText)) (slot : Slot) :
    (ofPlaced headers).value? slot = headerValue? headers slot := by
  induction headers with
  | nil => rfl
  | cons header headers ih =>
      rw [value?, headerValue?] at ih ⊢
      rw [ofPlaced, List.filterMap_cons, List.find?_cons, ← Headers.ofPlaced]
      cases hkey : Slot.ofKey header.part.keyName with
      | none =>
          have hnot : header.part.keyName ∉ slot.keys := by
            intro hmem
            rw [Slot.ofKey_eq_some.2 hmem] at hkey
            contradiction
          simp only [Option.map_none, hnot, decide_false]
          exact ih
      | some other =>
          rw [Option.map_some, List.lookup_cons]
          by_cases heq : slot = other
          · subst heq
            have hmem := Slot.ofKey_eq_some.1 hkey
            simp [hmem]
          · have hnot : header.part.keyName ∉ slot.keys := by
              intro hmem
              rw [Slot.ofKey_eq_some.2 hmem] at hkey
              exact heq (Option.some.inj hkey)
            simp only [hnot, beq_false_of_ne heq, decide_false]
            exact ih

theorem isSome_value?_ofPlaced {headers : List (Placed HeaderText)} {slot : Slot} :
    ((ofPlaced headers).value? slot).isSome = true ↔
      ∃ other ∈ headers, other.part.keyName ∈ slot.keys := by
  rw [value?_ofPlaced, headerValue?, Option.isSome_map, List.find?_isSome]
  simp

theorem add_node (text : List Char) (headers : Headers) (header : Placed HeaderText) :
    headers.add text (header.part.node header.start) =
      match Slot.ofKey header.part.keyName with
      | none => .error ⟨text, .span header.start (header.start + header.part.text.length),
          .unknownHeader header.part.keyName, none⟩
      | some slot =>
          if (headers.value? slot).isSome then
            .error ⟨text, .span header.start (header.start + header.part.text.length),
              .repeatedHeader header.part.keyName, none⟩
          else .ok (headers ++ [(slot, header.part.valueText)]) :=
  rfl

theorem add_of_fault {earlier : List (Placed HeaderText)} {header : Placed HeaderText}
    {cause : Cause} (h : HeaderFault earlier header.part cause) (text : List Char) :
    (ofPlaced earlier).add text (header.part.node header.start) =
      .error ⟨text, .span header.start (header.start + header.part.text.length), cause, none⟩ := by
  rw [add_node]
  cases h with
  | unknown hkey =>
      have hnone : Slot.ofKey header.part.keyName = none := by
        rw [Option.eq_none_iff_forall_ne_some]
        intro slot hslot
        exact hkey slot (Slot.ofKey_eq_some.1 hslot)
      rw [hnone]
  | repeated hkey hmem hother =>
      have hset := isSome_value?_ofPlaced.2 ⟨_, hmem, hother⟩
      simp only [Slot.ofKey_eq_some.2 hkey, hset, if_true]

theorem add_of_no_fault {earlier : List (Placed HeaderText)} {header : Placed HeaderText}
    (h : ¬ ∃ cause, HeaderFault earlier header.part cause) (text : List Char) :
    (ofPlaced earlier).add text (header.part.node header.start) =
      .ok (ofPlaced (earlier ++ [header])) := by
  rw [add_node]
  cases hkey : Slot.ofKey header.part.keyName with
  | none =>
      refine absurd ⟨_, .unknown ?_⟩ h
      intro slot hmem
      rw [Slot.ofKey_eq_some.2 hmem] at hkey
      contradiction
  | some slot =>
      have hnot : ¬ ((ofPlaced earlier).value? slot).isSome = true := by
        intro hset
        obtain ⟨other, hmem, hother⟩ := isSome_value?_ofPlaced.1 hset
        exact h ⟨_, .repeated (Slot.ofKey_eq_some.1 hkey) hmem hother⟩
      have hentries : ofPlaced (earlier ++ [header]) =
          ofPlaced earlier ++ [(slot, header.part.valueText)] := by
        simp [ofPlaced, hkey]
      dsimp only
      rw [if_neg hnot, hentries]

theorem ofNodes_append (text : List Char) (earlier later : List (Placed HeaderText)) :
    ofNodes text (headerNodes (earlier ++ later)) =
      ofNodes text (headerNodes earlier) >>= fun headers =>
        (headerNodes later).foldlM (add text) headers := by
  rw [ofNodes, headerNodes, List.map_append, List.foldlM_append]
  rfl

theorem ofNodes_of_faultless {headers : List (Placed HeaderText)} (h : Faultless headers)
    (text : List Char) : ofNodes text (headerNodes headers) = .ok (ofPlaced headers) := by
  induction headers using List.reverseRecOn with
  | nil => rfl
  | append_singleton headers header ih =>
      have hlast := add_of_no_fault h.last text
      rw [ofNodes_append, ih h.of_append]
      change (ofPlaced headers).add text (header.part.node header.start) >>= pure = _
      rw [hlast]
      rfl

theorem ofNodes_of_firstHeaderFault {headers : List (Placed HeaderText)}
    {header : Placed HeaderText} {cause : Cause} (h : FirstHeaderFault headers header cause)
    (text : List Char) : ofNodes text (headerNodes headers) =
      .error ⟨text, .span header.start (header.start + header.part.text.length), cause, none⟩ := by
  obtain ⟨earlier, later, rfl, hearlier, hfault⟩ := h
  have hlast := add_of_fault hfault text
  rw [ofNodes_append, ofNodes_of_faultless hearlier]
  change (ofPlaced earlier).add text (header.part.node header.start) >>= _ = _
  rw [hlast]
  rfl

end Headers

/-! Definitions. -/

/-- The value of the header that sets a field, or the empty text. -/
def Source.headerValue (headers : List (Placed HeaderText)) (slot : Slot) : String :=
  (headerValue? headers slot).getD ""

namespace Definition

/-- The text of the fields, as the headers and the rules of a document give it. -/
def documentFields (headers : List (Placed HeaderText)) (rules : List (Placed RuleText)) : Fields :=
  ⟨headerValue headers .input, headerValue headers .initial, headerValue headers .finals,
    headerValue headers .blank,
    Text.joinLines (rules.map fun rule => String.ofList (Text.trim rule.part.text))⟩

/-- The definition with the name of a header, unless that is blank. -/
def namedBy (headers : List (Placed HeaderText)) (definition : Definition) : Definition :=
  if (Text.trimmed (headerValue headers .name)).isEmpty then definition
  else definition.withName (Text.trimmed (headerValue headers .name))

theorem named_headerValue? (headers : List (Placed HeaderText)) (definition : Definition) :
    definition.named (headerValue? headers .name) = namedBy headers definition := by
  rw [named, namedBy, headerValue]
  cases headerValue? headers .name with
  | none => rfl
  | some name => rfl

theorem ofHeaders_ofPlaced (headers : List (Placed HeaderText)) (rules : List (Placed RuleText)) :
    ofHeaders (.ofPlaced headers)
        (rules.map fun rule => String.ofList (Text.trim rule.part.text)) =
      (ofFields (documentFields headers rules)).map (namedBy headers) := by
  have hvalue (slot : Slot) : (Headers.ofPlaced headers).value slot = headerValue headers slot :=
    congrArg (·.getD "") (Headers.value?_ofPlaced headers slot)
  rw [ofHeaders, hvalue, hvalue, hvalue, hvalue, Headers.value?_ofPlaced, ← documentFields]
  cases ofFields (documentFields headers rules) with
  | error fault => rfl
  | ok definition => exact congrArg Except.ok (named_headerValue? headers definition)

theorem ofCharacters_of_error {text : List Char} {error : SyntaxError}
    (h : Document.ofCharacters text = .error error) :
    ofCharacters text = .error (.malformed error) := by
  rw [ofCharacters, h]
  rfl

theorem ofCharacters_of_ok {text : List Char} {document : Document}
    (h : Document.ofCharacters text = .ok document) :
    ofCharacters text = (Headers.ofNodes text document.headers).mapError .malformed >>=
      fun headers => (ofHeaders headers document.rules).mapError .invalid := by
  rw [ofCharacters, h]
  rfl

/-- A text is read as a document exactly when it has a layout. Then the first header that cannot be
taken in is refused where it stands, and without one the definition is that of the fields. -/
theorem ofText_spec (text : String) :
    ((∃ document, Document.ofCharacters text.toList = .ok document) ↔
      ∃ headers rules, Layout (linesFrom 0 text.toList) headers rules) ∧
    (∀ error, Document.ofCharacters text.toList = .error error →
      ofText text = .error (.malformed error)) ∧
    ∀ headers rules, Layout (linesFrom 0 text.toList) headers rules →
      (Faultless headers ∨ ∃ header cause, FirstHeaderFault headers header cause) ∧
      (∀ header cause, FirstHeaderFault headers header cause →
        ofText text = .error (.malformed ⟨text.toList,
          .span header.start (header.start + header.part.text.length), cause, none⟩)) ∧
      (Faultless headers → ofText text =
        ((ofFields (documentFields headers rules)).map (namedBy headers)).mapError .invalid) := by
  refine ⟨⟨?_, ?_⟩, ?_, ?_⟩
  · rintro ⟨document, hdocument⟩
    by_contra hnone
    obtain ⟨error, herror⟩ := Document.ofCharacters_of_no_layout hnone
    rw [herror] at hdocument
    contradiction
  · rintro ⟨headers, rules, hlayout⟩
    exact ⟨_, Document.ofCharacters_of_layout hlayout⟩
  · intro error herror
    exact ofCharacters_of_error herror
  · intro headers rules hlayout
    have hread := ofCharacters_of_ok (Document.ofCharacters_of_layout hlayout)
    refine ⟨faultless_or_firstHeaderFault headers, ?_, ?_⟩
    · intro header cause hfault
      rw [ofText, hread, Headers.ofNodes_of_firstHeaderFault hfault]
      rfl
    · intro hfaultless
      rw [ofText, hread, Headers.ofNodes_of_faultless hfaultless, Except.mapError, ok_bind,
        ofHeaders_ofPlaced]

/-- A line with a rule is one even where it begins as a comment does. -/
example : (ofText "initial: q\nfinals: f\nrules:\n# a remark\n#,a -> f,b,R").toOption =
    some ⟨none, "", "q", ["f"], none, ["#,a -> f,b,R"]⟩ := by
  rfl

end Definition

end TapeMachine
