import ReactiveTree.Document.Markup

/-! # Escaped text

Each replacement goes over what the ones before it have written. That is no different from a single pass,
since no entity brings in a character that is replaced later. So escaped text has a form of its own: no
special character stands bare in it. Reading the entities back undoes the escaping, and every text of this
form is the escape of what it reads as.
-/

namespace ReactiveTree

namespace Document

/-- The characters that have a meaning in markup, with their entities, in the order of replacement. -/
def entities : List (Char × List Char) :=
  [('&', ['&', 'a', 'm', 'p', ';']), ('<', ['&', 'l', 't', ';']), ('>', ['&', 'g', 't', ';']),
    ('"', ['&', 'q', 'u', 'o', 't', ';'])]

/-- Whether a character has a meaning in markup. -/
def Special (char : Char) : Prop :=
  char ∈ entities.map Prod.fst

theorem special_iff {char : Char} :
    Special char ↔ char = '&' ∨ char = '<' ∨ char = '>' ∨ char = '"' := by
  simp [Special, entities]

/-- Carry out replacements one after another, each on the whole text. -/
def replaceEach (rules : List (Char × List Char)) (text : List Char) : List Char :=
  rules.foldl (fun text rule => replaceChar rule.1 rule.2 text) text

/-- Carry out replacements in a single pass. -/
def replaceOnce (rules : List (Char × List Char)) (text : List Char) : List Char :=
  text.flatMap fun char => (rules.lookup char).getD [char]

/-- Read entities back, from left to right; whatever is not one stands for itself. -/
def unescape : List Char → List Char
  | '&' :: 'a' :: 'm' :: 'p' :: ';' :: rest => '&' :: unescape rest
  | '&' :: 'l' :: 't' :: ';' :: rest => '<' :: unescape rest
  | '&' :: 'g' :: 't' :: ';' :: rest => '>' :: unescape rest
  | '&' :: 'q' :: 'u' :: 'o' :: 't' :: ';' :: rest => '"' :: unescape rest
  | char :: rest => char :: unescape rest
  | [] => []

/-- Text in which no special character stands bare: tags and values are neither opened nor closed, and
an ampersand is only ever the start of an entity. -/
structure Escaped (markup : List Char) : Prop where
  inert : ∀ char ∈ ['<', '>', '"'], char ∉ markup
  named : ∀ rest, '&' :: rest <:+ markup → ∃ entity ∈ entities, entity.2 <+: '&' :: rest

variable {char : Char} {text markup rest : List Char} {entity : Char × List Char}
  {rules : List (Char × List Char)}

theorem lookup_eq_none (unknown : ∀ rule ∈ rules, char ≠ rule.1) : rules.lookup char = none := by
  rw [List.lookup_eq_none_iff]
  intro rule member
  simpa using unknown rule member

theorem replaceOnce_eq_self (absent : ∀ rule ∈ rules, rule.1 ∉ text) : replaceOnce rules text = text := by
  induction text with
  | nil => rfl
  | cons char rest ih =>
    have none : rules.lookup char = none :=
      lookup_eq_none fun rule member same => absent rule member (same ▸ List.mem_cons_self)
    have later := ih fun rule member inside => absent rule member (List.mem_cons_of_mem _ inside)
    unfold replaceOnce at later ⊢
    rw [List.flatMap_cons, none, later]
    rfl

/-- Replacements come to a single pass as long as none brings in what a later one replaces. -/
theorem replaceEach_eq_replaceOnce (apart : rules.Pairwise fun early late => late.1 ∉ early.2)
    (text : List Char) : replaceEach rules text = replaceOnce rules text := by
  induction rules generalizing text with
  | nil => simp [replaceEach, replaceOnce]
  | cons rule rest ih =>
    obtain ⟨target, replacement⟩ := rule
    obtain ⟨absent, apart⟩ := List.pairwise_cons.mp apart
    have each (char : Char) : replaceOnce rest (if char = target then replacement else [char]) =
        (((target, replacement) :: rest).lookup char).getD [char] := by
      rw [List.lookup_cons]
      by_cases here : char = target
      · rw [if_pos here, replaceOnce_eq_self absent]
        simp [here]
      · rw [if_neg here]
        simp [replaceOnce, beq_false_of_ne here]
    calc
      replaceEach ((target, replacement) :: rest) text
          = replaceEach rest (replaceChar target replacement text) := rfl
      _ = replaceOnce rest (replaceChar target replacement text) := ih apart _
      _ = text.flatMap fun char =>
            replaceOnce rest (if char = target then replacement else [char]) := List.flatMap_assoc
      _ = replaceOnce ((target, replacement) :: rest) text := by
        simp only [each]
        rfl

/-- The ampersand is replaced first, so that no entity is taken for text. -/
theorem escape_eq_replaceOnce (text : List Char) : escape text = replaceOnce entities text := by
  have apart : entities.Pairwise fun early late => late.1 ∉ early.2 := by decide
  exact replaceEach_eq_replaceOnce apart text

theorem escape_cons_of_mem (member : entity ∈ entities) (text : List Char) :
    escape (entity.1 :: text) = entity.2 ++ escape text := by
  have known : ∀ entity ∈ entities, entities.lookup entity.1 = some entity.2 := by decide
  simp only [escape_eq_replaceOnce, replaceOnce, List.flatMap_cons, known entity member,
    Option.getD_some]

theorem escape_cons_of_not_special (plain : ¬ Special char) (text : List Char) :
    escape (char :: text) = char :: escape text := by
  have none : entities.lookup char = none :=
    lookup_eq_none fun entity member same => plain (List.mem_map.mpr ⟨entity, member, same.symm⟩)
  simp only [escape_eq_replaceOnce, replaceOnce, List.flatMap_cons, none, Option.getD_none,
    List.singleton_append]

/-- An entity has an ampersand at its start and no special character after it. -/
theorem entity_eq_cons (member : entity ∈ entities) :
    entity.2 = '&' :: entity.2.tail ∧ ∀ char ∈ entity.2.tail, ¬ Special char := by
  simp only [entities, List.mem_cons, List.not_mem_nil, or_false] at member
  rcases member with rfl | rfl | rfl | rfl <;> simp [special_iff]

namespace Escaped

theorem nil : Escaped [] where
  inert := by simp
  named := by simp

theorem suffix (escaped : Escaped markup) (ends : rest <:+ markup) : Escaped rest where
  inert char member inside := escaped.inert char member (ends.mem inside)
  named after suffix := escaped.named after (suffix.trans ends)

theorem cons (escaped : Escaped markup) (plain : ¬ Special char) : Escaped (char :: markup) where
  inert := by
    intro other member inside
    rcases List.mem_cons.mp inside with rfl | later
    · exact plain (special_iff.mpr (.inr (by simpa using member)))
    · exact escaped.inert other member later
  named := by
    intro after suffix
    rcases List.suffix_cons_iff.mp suffix with same | later
    · cases same
      exact absurd (special_iff.mpr (.inl rfl)) plain
    · exact escaped.named after later

/-- Characters without meaning may stand in front. -/
theorem append (escaped : Escaped markup) (plain : ∀ char ∈ text, ¬ Special char) :
    Escaped (text ++ markup) := by
  induction text with
  | nil => exact escaped
  | cons char rest ih =>
    exact (ih fun other member => plain other (List.mem_cons_of_mem _ member)).cons
      (plain char List.mem_cons_self)

theorem entity_append (escaped : Escaped markup) (member : entity ∈ entities) :
    Escaped (entity.2 ++ markup) := by
  obtain ⟨starts, plain⟩ := entity_eq_cons member
  have later : Escaped (entity.2.tail ++ markup) := escaped.append plain
  constructor
  · intro char special inside
    rw [starts, List.cons_append, List.mem_cons] at inside
    rcases inside with rfl | inside
    · simp at special
    · exact later.inert char special inside
  · intro after suffix
    rw [starts, List.cons_append, List.suffix_cons_iff] at suffix
    rcases suffix with same | inside
    · refine ⟨entity, member, ?_⟩
      rw [same, ← List.cons_append, ← starts]
      exact List.prefix_append ..
    · exact later.named after inside

end Escaped

theorem escaped_escape (text : List Char) : Escaped (escape text) := by
  induction text with
  | nil => exact .nil
  | cons char rest ih =>
    by_cases special : Special char
    · obtain ⟨entity, member, rfl⟩ := List.mem_map.mp special
      rw [escape_cons_of_mem member]
      exact ih.entity_append member
    · rw [escape_cons_of_not_special special]
      exact ih.cons special

theorem unescape_entity_append (member : entity ∈ entities) (rest : List Char) :
    unescape (entity.2 ++ rest) = entity.1 :: unescape rest := by
  simp only [entities, List.mem_cons, List.not_mem_nil, or_false] at member
  rcases member with rfl | rfl | rfl | rfl <;> rfl

theorem unescape_cons (plain : char ≠ '&') (rest : List Char) :
    unescape (char :: rest) = char :: unescape rest := by
  rw [unescape.eq_def]
  split <;> simp_all

/-- Escaped text reads as the text, whatever comes behind it. -/
theorem unescape_escape_append (text rest : List Char) :
    unescape (escape text ++ rest) = text ++ unescape rest := by
  induction text with
  | nil => rfl
  | cons char text ih =>
    by_cases special : Special char
    · obtain ⟨entity, member, rfl⟩ := List.mem_map.mp special
      rw [escape_cons_of_mem member, List.append_assoc, unescape_entity_append member, ih]
      rfl
    · have plain : char ≠ '&' := fun same => special (special_iff.mpr (.inl same))
      rw [escape_cons_of_not_special special, List.cons_append, unescape_cons plain, ih]
      rfl

theorem unescape_escape (text : List Char) : unescape (escape text) = text := by
  simpa [unescape] using unescape_escape_append text []

/-- There is a text behind everything of this form. -/
theorem Escaped.exists_text (escaped : Escaped markup) : ∃ text, escape text = markup := by
  induction size : markup.length using Nat.strongRecOn generalizing markup with
  | ind length ih =>
    cases markup with
    | nil => exact ⟨[], rfl⟩
    | cons char rest =>
      by_cases special : Special char
      · have ampersand : char = '&' := by
          refine (special_iff.mp special).resolve_right fun bare => ?_
          exact escaped.inert char (by simpa using bare) List.mem_cons_self
        subst ampersand
        obtain ⟨entity, member, behind, split⟩ := escaped.named rest List.suffix_rfl
        have ends : behind <:+ '&' :: rest := split ▸ List.suffix_append ..
        have shorter : behind.length < length := by
          have starts := congrArg List.length (entity_eq_cons member).1
          rw [List.length_cons] at starts
          rw [← size, ← split, List.length_append]
          omega
        obtain ⟨text, same⟩ := ih _ shorter (escaped.suffix ends) rfl
        exact ⟨entity.1 :: text, by rw [escape_cons_of_mem member, same, split]⟩
      · have shorter : rest.length < length := by
          rw [← size]
          exact Nat.lt_succ_self _
        obtain ⟨text, same⟩ := ih _ shorter (escaped.suffix (List.suffix_cons ..)) rfl
        exact ⟨char :: text, by rw [escape_cons_of_not_special special, same]⟩

/-- What markup reads as is escaped to the same markup exactly if no special character stands bare. -/
theorem escaped_iff : Escaped markup ↔ escape (unescape markup) = markup := by
  constructor
  · intro escaped
    obtain ⟨text, rfl⟩ := escaped.exists_text
    rw [unescape_escape]
  · intro same
    exact same ▸ escaped_escape _

/-- Escaping replaces each special character by its entity, in effect in a single pass. Nothing in the
result can be taken for markup, and no two texts are taken for each other. -/
theorem escape_faithful (text : List Char) :
    escape text = replaceOnce entities text ∧ Escaped (escape text) ∧
      unescape (escape text) = text ∧ ∀ other, escape other = escape text → other = text := by
  refine ⟨escape_eq_replaceOnce text, escaped_escape text, unescape_escape text, ?_⟩
  intro other same
  calc
    other = unescape (escape other) := (unescape_escape other).symm
    _ = unescape (escape text) := by rw [same]
    _ = text := unescape_escape text

/-- An entity in the text comes back as it was, and is told from the character that it names. -/
example : escape ['&', 'l', 't', ';', '<'] =
    ['&', 'a', 'm', 'p', ';', 'l', 't', ';', '&', 'l', 't', ';'] := by
  decide

end Document

end ReactiveTree
