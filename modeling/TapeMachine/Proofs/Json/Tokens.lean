import TapeMachine.Proofs.Json.Spelling

/-!
Values as rows of tokens. A value is spelled by one row of tokens and the reader, which goes over a
row from left to right, finds it there. The main statement says that it finds nothing else: at every
token, what the reader has taken in so far is spelled by the tokens so far.
-/

namespace TapeMachine.Json

mutual

def tokens : Json → List Token
  | null => [.word "null".toList]
  | bool value => [.word (toString value).toList]
  | number literal => [.word literal.toList]
  | text value => [.text value]
  | array items => .mark '[' :: itemTokens items ++ [.mark ']']
  | object members => .mark '\x7b' :: memberTokens members ++ [.mark '\x7d']

def itemTokens : List Json → List Token
  | [] => []
  | [item] => item.tokens
  | item :: next :: rest => item.tokens ++ .mark ',' :: itemTokens (next :: rest)

def memberTokens : List (Option String × Json) → List Token
  | [] => []
  | [(key, value)] => .text key :: .mark ':' :: value.tokens
  | (key, value) :: next :: rest =>
      .text key :: .mark ':' :: (value.tokens ++ .mark ',' :: memberTokens (next :: rest))

end

/-- A value that can be read: its numbers are written as numbers are. -/
inductive IsReadable : Json → Prop where
  | null : IsReadable .null
  | bool (value : Bool) : IsReadable (.bool value)
  | number {literal : String} (h : isNumber literal.toList = true) : IsReadable (.number literal)
  | text (value : Option String) : IsReadable (.text value)
  | array {items : List Json} (h : ∀ item ∈ items, IsReadable item) : IsReadable (.array items)
  | object {members : List (Option String × Json)} (h : ∀ member ∈ members, IsReadable member.2) :
      IsReadable (.object members)

/-- The tokens of one member of an object. -/
def ofMember (member : Option String × Json) : List Token :=
  .text member.1 :: .mark ':' :: member.2.tokens

theorem itemTokens_eq (items : List Json) :
    itemTokens items = [.mark ','].intercalate (items.map tokens) := by
  induction items with
  | nil => rfl
  | cons item items ih =>
      cases items with
      | nil => simp [itemTokens]
      | cons next rest => simp [itemTokens, ih]

theorem memberTokens_eq (members : List (Option String × Json)) :
    memberTokens members = [.mark ','].intercalate (members.map ofMember) := by
  induction members with
  | nil => rfl
  | cons member members ih =>
      cases members with
      | nil => simp [memberTokens, ofMember]
      | cons next rest => simp [memberTokens, ofMember, ih]

theorem tokens_array (items : List Json) : (array items).tokens =
    .mark '[' :: [.mark ','].intercalate (items.map tokens) ++ [.mark ']'] := by
  rw [tokens, itemTokens_eq]

theorem tokens_object (members : List (Option String × Json)) : (object members).tokens =
    .mark '\x7b' :: [.mark ','].intercalate (members.map ofMember) ++ [.mark '\x7d'] := by
  rw [tokens, memberTokens_eq]

/-- No value begins with a closing bracket. -/
theorem exists_tokens_eq_cons (value : Json) :
    ∃ first rest, value.tokens = first :: rest ∧ first ≠ .mark ']' := by
  cases value with
  | array items => exact ⟨_, _, tokens_array items, by decide⟩
  | object members => exact ⟨_, _, tokens_object members, by decide⟩
  | _ => exact ⟨_, _, by rw [tokens], by simp⟩

/-! Words. -/

theorem ofWord_of_isNumber {word : List Char} (h : isNumber word = true) :
    ofWord word = some (.number (String.ofList word)) := by
  have hne {other : List Char} (hother : isNumber other = false) : word ≠ other := by
    rintro rfl
    exact absurd h (Bool.eq_false_iff.1 hother)
  rw [ofWord, if_neg (hne rfl), if_neg (hne rfl), if_neg (hne rfl), if_pos h]

theorem readable_of_ofWord {word : List Char} {value : Json} (h : ofWord word = some value) :
    value.IsReadable ∧ value.tokens = [.word word] := by
  unfold ofWord at h
  split_ifs at h with hnull htrue hfalse hnumber
  all_goals cases h
  · exact ⟨.null, by rw [tokens, hnull]⟩
  · exact ⟨.bool true, by rw [tokens, htrue]; rfl⟩
  · exact ⟨.bool false, by rw [tokens, hfalse]; rfl⟩
  · exact ⟨.number (by rwa [String.toList_ofList]), by rw [tokens, String.toList_ofList]⟩

/-! From a value to its tokens and back. -/

theorem readTokens_cons (expecting : Expecting) (token : Token) (rest : List Token) :
    readTokens expecting (token :: rest) = expecting.next token >>= (readTokens · rest) := by
  rw [readTokens]

/-- The reader finds the value in its tokens, whatever is open around it and whatever follows. -/
def IsReadBack (value : Json) : Prop :=
  ∀ stack rest, readTokens (.value stack) (value.tokens ++ rest) =
    readTokens (.separator value stack) rest

theorem isReadBack_of_word (word : List Char) {value : Json} (h : ofWord word = some value) :
    value.IsReadBack := by
  intro stack rest
  rw [(readable_of_ofWord h).2, List.singleton_append, readTokens_cons]
  simp [Expecting.next, beginValue, h]

theorem readTokens_items {items : List Json} (hitems : ∀ item ∈ items, item.IsReadBack)
    (hne : items ≠ []) (done : List Json) (stack : List Open) (rest : List Token) :
    readTokens (.value (.array done :: stack))
      ([.mark ','].intercalate (items.map tokens) ++ .mark ']' :: rest) =
    readTokens (.separator (.array (done.reverse ++ items)) stack) rest := by
  induction items generalizing done with
  | nil => exact absurd rfl hne
  | cons item items ih =>
      obtain ⟨hitem, hrest⟩ := List.forall_mem_cons.1 hitems
      cases items with
      | nil =>
          rw [List.map_singleton, List.intercalate_singleton, hitem, readTokens_cons]
          simp [Expecting.next]
      | cons next others =>
          rw [List.map_cons, List.map_cons, List.intercalate_cons_cons, List.append_assoc,
            List.append_assoc, hitem, List.singleton_append, readTokens_cons, Expecting.next]
          exact (ih hrest (List.cons_ne_nil _ _) (item :: done)).trans (by simp)

theorem readTokens_ofMember {member : Option String × Json} (h : member.2.IsReadBack)
    (done : List (Option String × Json)) (stack : List Open) (rest : List Token) :
    readTokens (.key done stack) (ofMember member ++ rest) =
      readTokens (.separator member.2 (.object done member.1 :: stack)) rest := by
  rw [ofMember, List.cons_append, readTokens_cons, Expecting.next]
  exact h _ _

theorem readTokens_members {members : List (Option String × Json)}
    (hmembers : ∀ member ∈ members, member.2.IsReadBack) (hne : members ≠ [])
    (done : List (Option String × Json)) (stack : List Open) (rest : List Token) :
    readTokens (.key done stack)
      ([.mark ','].intercalate (members.map ofMember) ++ .mark '\x7d' :: rest) =
    readTokens (.separator (.object (done.reverse ++ members)) stack) rest := by
  induction members generalizing done with
  | nil => exact absurd rfl hne
  | cons member members ih =>
      obtain ⟨hmember, hrest⟩ := List.forall_mem_cons.1 hmembers
      cases members with
      | nil =>
          rw [List.map_singleton, List.intercalate_singleton, readTokens_ofMember hmember,
            readTokens_cons]
          simp [Expecting.next]
      | cons next others =>
          rw [List.map_cons, List.map_cons, List.intercalate_cons_cons, List.append_assoc,
            List.append_assoc, readTokens_ofMember hmember, List.singleton_append, readTokens_cons,
            Expecting.next]
          exact (ih hrest (List.cons_ne_nil _ _) (member :: done)).trans (by simp)

/-- After an opening bracket the reader looks for a value, unless it closes at once. -/
theorem next_firstItem (stack : List Open) {token : Token} (h : token ≠ .mark ']') :
    (Expecting.firstItem stack).next token = (Expecting.value (.array [] :: stack)).next token := by
  unfold Expecting.next
  split
  all_goals simp_all

theorem IsReadable.isReadBack {value : Json} (h : value.IsReadable) : value.IsReadBack := by
  induction h with
  | null => exact isReadBack_of_word "null".toList rfl
  | bool value =>
      cases value with
      | true => exact isReadBack_of_word "true".toList rfl
      | false => exact isReadBack_of_word "false".toList rfl
  | number hnumber =>
      have hword := ofWord_of_isNumber hnumber
      rw [String.ofList_toList] at hword
      exact isReadBack_of_word _ hword
  | text value => exact fun stack rest => by rw [tokens]; rfl
  | @array items _ ih =>
      intro stack rest
      rw [tokens_array, List.append_assoc, List.singleton_append, List.cons_append, readTokens_cons]
      cases items with
      | nil => rfl
      | cons item items =>
          obtain ⟨first, others, hfirst, hne⟩ := exists_tokens_eq_cons item
          have hitems := readTokens_items ih (List.cons_ne_nil item items) [] stack rest
          obtain ⟨more, hmore⟩ : ∃ more, [.mark ','].intercalate ((item :: items).map tokens) ++
              .mark ']' :: rest = first :: more := by
            cases items <;> simp [hfirst]
          rw [hmore] at hitems ⊢
          rw [readTokens_cons, ← next_firstItem stack hne] at hitems
          exact hitems
  | @object members _ ih =>
      intro stack rest
      rw [tokens_object, List.append_assoc, List.singleton_append, List.cons_append,
        readTokens_cons]
      cases members with
      | nil => rfl
      | cons member members =>
          have hmembers := readTokens_members ih (List.cons_ne_nil member members) [] stack rest
          obtain ⟨more, hmore⟩ : ∃ more, [.mark ','].intercalate ((member :: members).map ofMember) ++
              .mark '\x7d' :: rest = .text member.1 :: more := by
            cases members <;> simp [ofMember]
          rw [hmore] at hmembers ⊢
          exact hmembers

/-! What the reader has seen. -/

namespace Open

/-- The tokens of an open array or object so far. -/
def tokens : Open → List Token
  | array items => .mark '[' :: items.reverse.flatMap fun item => item.tokens ++ [.mark ',']
  | object members key =>
      .mark '\x7b' :: (members.reverse.flatMap fun member => ofMember member ++ [.mark ',']) ++
        [.text key, .mark ':']

def IsReadable : Open → Prop
  | array items => ∀ item ∈ items, item.IsReadable
  | object members _ => ∀ member ∈ members, member.2.IsReadable

/-- The tokens of all that is open, from the outermost on. -/
def allTokens (stack : List Open) : List Token :=
  stack.reverse.flatMap tokens

theorem allTokens_cons (opened : Open) (stack : List Open) :
    allTokens (opened :: stack) = allTokens stack ++ opened.tokens := by
  rw [allTokens, List.reverse_cons, List.flatMap_append, List.flatMap_singleton, allTokens]

end Open

namespace Expecting

/-- What is open, from the innermost on. -/
def stack : Expecting → List Open
  | value stack | firstItem stack | firstKey stack | key _ stack | colon _ _ stack
  | separator _ stack => stack

/-- The tokens that come after those of what is open. -/
def last : Expecting → List Token
  | value _ => []
  | firstItem _ => [.mark '[']
  | firstKey _ => [.mark '\x7b']
  | key members _ =>
      .mark '\x7b' :: members.reverse.flatMap fun member => ofMember member ++ [.mark ',']
  | colon members name _ =>
      .mark '\x7b' :: (members.reverse.flatMap fun member => ofMember member ++ [.mark ',']) ++
        [.text name]
  | separator found _ => found.tokens

/-- The values that come after those of what is open. -/
def held : Expecting → List Json
  | value _ | firstItem _ | firstKey _ => []
  | key members _ | colon members _ _ => members.map Prod.snd
  | separator found _ => [found]

/-- The reader holds values that can be read, and what it has taken in is spelled by the tokens. -/
structure HasSeen (expecting : Expecting) (tokens : List Token) : Prop where
  stack_readable : ∀ opened ∈ expecting.stack, opened.IsReadable
  held_readable : ∀ value ∈ expecting.held, value.IsReadable
  tokens_eq : tokens = Open.allTokens expecting.stack ++ expecting.last

end Expecting

theorem intercalate_concat {α : Type} (separator : List α) (parts : List (List α)) (last : List α) :
    separator.intercalate (parts ++ [last]) = (parts.flatMap (· ++ separator)) ++ last := by
  induction parts with
  | nil => simp
  | cons part parts ih =>
      rw [List.cons_append, List.intercalate_cons_of_ne_nil (by simp), ih]
      simp

theorem tokens_closedArray (items : List Json) (last : Json) :
    (array (last :: items).reverse).tokens =
      (Open.array items).tokens ++ last.tokens ++ [.mark ']'] := by
  rw [tokens_array, List.reverse_cons, List.map_append, List.map_singleton, intercalate_concat,
    List.flatMap_map]
  rfl

theorem tokens_closedObject (members : List (Option String × Json)) (name : Option String)
    (last : Json) : (object ((name, last) :: members).reverse).tokens =
      (Open.object members name).tokens ++ last.tokens ++ [.mark '\x7d'] := by
  rw [tokens_object, List.reverse_cons, List.map_append, List.map_singleton, intercalate_concat,
    List.flatMap_map]
  simp [Open.tokens, ofMember]

theorem hasSeen_beginValue {stack : List Open} {token : Token} {expecting : Expecting}
    (h : beginValue stack token = some expecting) (hstack : ∀ opened ∈ stack, opened.IsReadable) :
    expecting.HasSeen (Open.allTokens stack ++ [token]) := by
  unfold beginValue at h
  split at h
  · obtain ⟨value, hvalue, rfl⟩ := Option.map_eq_some_iff.1 h
    obtain ⟨hreadable, htokens⟩ := readable_of_ofWord hvalue
    exact ⟨hstack, List.forall_mem_singleton.2 hreadable, by rw [← htokens]; rfl⟩
  · next value =>
      cases h
      exact ⟨hstack, List.forall_mem_singleton.2 (.text value), by rw [Expecting.last, tokens]; rfl⟩
  · cases h
    exact ⟨hstack, nofun, rfl⟩
  · cases h
    exact ⟨hstack, nofun, rfl⟩
  · cases h

/-- What an open array holds once the value that was just found is in it. -/
theorem readable_items {found : Json} {items : List Json} {stack : List Open}
    (hstack : ∀ opened ∈ Open.array items :: stack, opened.IsReadable)
    (hheld : ∀ value ∈ [found], value.IsReadable) :
    (∀ item ∈ found :: items, item.IsReadable) ∧ ∀ opened ∈ stack, opened.IsReadable := by
  obtain ⟨hitems, hstack⟩ := List.forall_mem_cons.1 hstack
  exact ⟨List.forall_mem_cons.2 ⟨List.forall_mem_singleton.1 hheld, hitems⟩, hstack⟩

theorem readable_members {found : Json} {members : List (Option String × Json)}
    {name : Option String} {stack : List Open}
    (hstack : ∀ opened ∈ Open.object members name :: stack, opened.IsReadable)
    (hheld : ∀ value ∈ [found], value.IsReadable) :
    (∀ member ∈ (name, found) :: members, member.2.IsReadable) ∧
      ∀ opened ∈ stack, opened.IsReadable := by
  obtain ⟨hmembers, hstack⟩ := List.forall_mem_cons.1 hstack
  exact ⟨List.forall_mem_cons.2 ⟨List.forall_mem_singleton.1 hheld, hmembers⟩, hstack⟩

/-- Every token is taken in, none is taken for another. -/
theorem Expecting.HasSeen.next {expecting expecting' : Expecting} {seen : List Token}
    (hseen : expecting.HasSeen seen) {token : Token}
    (h : expecting.next token = some expecting') : expecting'.HasSeen (seen ++ [token]) := by
  obtain ⟨hstack, hheld, rfl⟩ := hseen
  unfold Expecting.next at h
  split at h
  · rw [last, List.append_nil]
    exact hasSeen_beginValue h hstack
  · cases h
    exact ⟨hstack, List.forall_mem_singleton.2 (.array nofun),
      by simp [last, stack, tokens_array]⟩
  · next outer _ =>
      have hbegun := hasSeen_beginValue h (List.forall_mem_cons.2 ⟨nofun, hstack⟩)
      rwa [Open.allTokens_cons] at hbegun
  · cases h
    exact ⟨hstack, List.forall_mem_singleton.2 (.object nofun),
      by simp [last, stack, tokens_object]⟩
  · cases h
    exact ⟨hstack, nofun, by simp [last, stack]⟩
  · cases h
    exact ⟨hstack, hheld, by simp [last, stack]⟩
  · cases h
    exact ⟨List.forall_mem_cons.2 ⟨List.forall_mem_map.1 hheld, hstack⟩, nofun,
      by simp [last, stack, Open.allTokens_cons, Open.tokens]⟩
  · cases h
    obtain ⟨hitems, hstack⟩ := readable_items hstack hheld
    exact ⟨List.forall_mem_cons.2 ⟨hitems, hstack⟩, nofun,
      by simp [last, stack, Open.allTokens_cons, Open.tokens]⟩
  · cases h
    obtain ⟨hitems, hstack⟩ := readable_items hstack hheld
    refine ⟨hstack, List.forall_mem_singleton.2 (.array fun item hitem => ?_), ?_⟩
    · exact hitems item (List.mem_reverse.1 hitem)
    · simp only [last, stack, tokens_closedArray, Open.allTokens_cons, List.append_assoc]
  · cases h
    obtain ⟨hmembers, hstack⟩ := readable_members hstack hheld
    exact ⟨hstack, List.forall_mem_map.2 hmembers,
      by simp [last, stack, Open.allTokens_cons, Open.tokens, ofMember]⟩
  · cases h
    obtain ⟨hmembers, hstack⟩ := readable_members hstack hheld
    refine ⟨hstack, List.forall_mem_singleton.2 (.object fun member hmember => ?_), ?_⟩
    · exact hmembers member (List.mem_reverse.1 hmember)
    · simp only [last, stack, tokens_closedObject, Open.allTokens_cons, List.append_assoc]
  · cases h

theorem readTokens_nil {expecting : Expecting} {value : Json}
    (h : readTokens expecting [] = some value) : expecting = .separator value [] := by
  unfold readTokens at h
  split at h
  · rw [Option.some.inj h]
  · cases h
  · next heq => cases heq

theorem Expecting.HasSeen.readTokens {expecting : Expecting} {seen rest : List Token} {value : Json}
    (hseen : expecting.HasSeen seen) (h : readTokens expecting rest = some value) :
    value.IsReadable ∧ value.tokens = seen ++ rest := by
  induction rest generalizing expecting seen with
  | nil =>
      obtain rfl := readTokens_nil h
      obtain ⟨-, hheld, rfl⟩ := hseen
      exact ⟨List.forall_mem_singleton.1 hheld, (List.append_nil _).symm⟩
  | cons token rest ih =>
      rw [readTokens_cons, Option.bind_eq_bind, Option.bind_eq_some_iff] at h
      obtain ⟨expecting', hnext, hrest⟩ := h
      rw [← List.singleton_append, ← List.append_assoc]
      exact ih (hseen.next hnext) hrest

/-- The reader finds a value in its tokens and in no others. -/
theorem readTokens_eq_some_iff {found : List Token} {value : Json} :
    readTokens (.value []) found = some value ↔ value.IsReadable ∧ value.tokens = found := by
  constructor
  · have hstart : (Expecting.value []).HasSeen [] :=
      ⟨List.forall_mem_nil _, List.forall_mem_nil _, rfl⟩
    exact fun h => hstart.readTokens h
  · rintro ⟨hreadable, rfl⟩
    have hread := hreadable.isReadBack [] []
    rwa [List.append_nil] at hread

theorem read_eq_some_iff {text : String} {value : Json} :
    read text = some value ↔ value.IsReadable ∧ lex text = some value.tokens := by
  rw [read, Option.bind_eq_bind, Option.bind_eq_some_iff]
  constructor
  · rintro ⟨found, hlex, hread⟩
    obtain ⟨hreadable, rfl⟩ := readTokens_eq_some_iff.1 hread
    exact ⟨hreadable, hlex⟩
  · rintro ⟨hreadable, hlex⟩
    exact ⟨_, hlex, readTokens_eq_some_iff.2 ⟨hreadable, rfl⟩⟩

end TapeMachine.Json
