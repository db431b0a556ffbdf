import TapeMachine.Json.Parser
import TapeMachine.Proofs.Json.Scanning

/-!
# TapeMachine.Proofs.Json.Parsing — a value and its lexemes

`Json.lexemes` writes a value down.  `Parser.Step` says what one lexeme does to the parser.  The state
of the parser holds everything that it has read (`Step.hasRead`), so the document spells the lexemes
of its value (`spelledBy_of_parse?`); and what is open leaves room for the values in it
(`Step.inDepth`), so the value keeps to the depth that is allowed (`within_of_parse?`).  Conversely,
every value that keeps to the depth is read from its lexemes (`Within.reads`), and from every text
that spells them if they are punctuation and integers (`parse?_of_spelledBy`).
-/

namespace TapeMachine

namespace Json

mutual

/-- The lexemes of a value. -/
def lexemes : Json → List Lexeme
  | .array items => .arrayOpen :: (itemLexemes items ++ [.arrayClose])
  | .object members => .objectOpen :: (memberLexemes members ++ [.objectClose])
  | value => [.scalar value]

/-- The lexemes between the brackets of an array. -/
def itemLexemes : List Json → List Lexeme
  | [] => []
  | [item] => item.lexemes
  | item :: items => item.lexemes ++ .comma :: itemLexemes items

/-- The lexemes between the braces of an object. -/
def memberLexemes : List (String × Json) → List Lexeme
  | [] => []
  | [(key, value)] => .scalar (.string key) :: .colon :: value.lexemes
  | (key, value) :: members =>
    .scalar (.string key) :: .colon :: (value.lexemes ++ .comma :: memberLexemes members)

end

theorem lexemes_scalar {value : Json} (h : value.isScalar = true) :
    value.lexemes = [.scalar value] := by
  cases value with
  | array | object => cases h
  | _ => simp [lexemes]

/-- Items of which each is followed by a comma. -/
def itemsBefore (items : List Json) : List Lexeme :=
  items.flatMap fun item => item.lexemes ++ [.comma]

/-- Members of which each is followed by a comma. -/
def membersBefore (members : List (String × Json)) : List Lexeme :=
  members.flatMap fun (key, value) => .scalar (.string key) :: .colon :: value.lexemes ++ [.comma]

theorem itemLexemes_singleton (item : Json) : itemLexemes [item] = item.lexemes := by
  rw [itemLexemes]

theorem itemLexemes_cons_cons (item following : Json) (items : List Json) :
    itemLexemes (item :: following :: items) =
      item.lexemes ++ .comma :: itemLexemes (following :: items) :=
  itemLexemes.eq_3 item _ (List.cons_ne_nil _ _)

theorem memberLexemes_singleton (key : String) (value : Json) :
    memberLexemes [(key, value)] = .scalar (.string key) :: .colon :: value.lexemes := by
  rw [memberLexemes]

theorem memberLexemes_cons_cons (key : String) (value : Json) (following : String × Json)
    (members : List (String × Json)) :
    memberLexemes ((key, value) :: following :: members) = .scalar (.string key) :: .colon ::
      (value.lexemes ++ .comma :: memberLexemes (following :: members)) :=
  memberLexemes.eq_3 key value _ (List.cons_ne_nil _ _)

theorem itemLexemes_append (items : List Json) (last : Json) :
    itemLexemes (items ++ [last]) = itemsBefore items ++ last.lexemes := by
  induction items with
  | nil => simp [itemLexemes, itemsBefore]
  | cons item items ih =>
    have hne : items ++ [last] ≠ [] := List.append_ne_nil_of_right_ne_nil _ (List.cons_ne_nil _ _)
    rw [List.cons_append, itemLexemes, ih]
    · simp [itemsBefore]
    · exact hne

theorem memberLexemes_append (members : List (String × Json)) (key : String) (value : Json) :
    memberLexemes (members ++ [(key, value)]) =
      membersBefore members ++ .scalar (.string key) :: .colon :: value.lexemes := by
  induction members with
  | nil => simp [memberLexemes, membersBefore]
  | cons member members ih =>
    have hne : members ++ [(key, value)] ≠ [] :=
      List.append_ne_nil_of_right_ne_nil _ (List.cons_ne_nil _ _)
    rw [List.cons_append, memberLexemes, ih]
    · simp [membersBefore]
    · exact hne

/-! ### Spelling, depth and plain values -/

/-- The text is spaced out of tokens that spell the lexemes of the value. -/
def SpelledBy (value : Json) (text : List Char) : Prop :=
  ∃ tokens, List.Forall₂ Lexeme.Spells value.lexemes tokens ∧ Spaced tokens text

/-- At most `depth` arrays and objects are open at once in the value. -/
inductive Within : Nat → Json → Prop
  | scalar {depth : Nat} {value : Json} (h : value.isScalar = true) : Within depth value
  | array {depth : Nat} {items : List Json} (h : ∀ item ∈ items, Within depth item) :
      Within (depth + 1) (.array items)
  | object {depth : Nat} {members : List (String × Json)}
      (h : ∀ member ∈ members, Within depth member.2) : Within (depth + 1) (.object members)

theorem within_integer (depth : Nat) (value : Int) : Within depth (.integer value) := .scalar rfl

/-- Whether a value is written with punctuation and integers only. -/
def Plain (value : Json) : Prop := ∀ lexeme ∈ value.lexemes, lexeme.Plain

theorem plain_integer (value : Int) : Plain (.integer value) := by
  intro lexeme hmem
  rw [lexemes_scalar rfl, List.mem_singleton] at hmem
  subst hmem
  trivial

theorem plain_itemLexemes {items : List Json} (h : ∀ item ∈ items, item.Plain) :
    ∀ lexeme ∈ itemLexemes items, lexeme.Plain := by
  induction items with
  | nil => simp [itemLexemes]
  | cons item items ih =>
    obtain ⟨hitem, hrest⟩ := List.forall_mem_cons.mp h
    cases items with
    | nil =>
      rw [itemLexemes_singleton]
      exact hitem
    | cons following items =>
      rw [itemLexemes_cons_cons]
      exact List.forall_mem_append.mpr ⟨hitem, List.forall_mem_cons.mpr ⟨trivial, ih hrest⟩⟩

theorem plain_array {items : List Json} (h : ∀ item ∈ items, item.Plain) :
    Plain (.array items) := by
  have hclose : ∀ lexeme ∈ [Lexeme.arrayClose], lexeme.Plain := by
    simp [Lexeme.Plain]
  intro lexeme hmem
  rw [lexemes] at hmem
  revert lexeme
  exact List.forall_mem_cons.mpr
    ⟨trivial, List.forall_mem_append.mpr ⟨plain_itemLexemes h, hclose⟩⟩

section Apart

open Lexeme

theorem apart_itemLexemes {items : List Json} (h : ∀ item ∈ items, Apart item.lexemes) :
    Apart (itemLexemes items) := by
  induction items with
  | nil => simp [itemLexemes, Apart]
  | cons item items ih =>
    obtain ⟨hitem, hrest⟩ := List.forall_mem_cons.mp h
    cases items with
    | nil =>
      rw [itemLexemes_singleton]
      exact hitem
    | cons following items =>
      rw [itemLexemes_cons_cons]
      exact hitem.append_cons rfl (ih hrest)

theorem apart_memberLexemes {members : List (String × Json)}
    (h : ∀ member ∈ members, Apart member.2.lexemes) : Apart (memberLexemes members) := by
  induction members with
  | nil => simp [memberLexemes, Apart]
  | cons member members ih =>
    obtain ⟨key, value⟩ := member
    obtain ⟨hvalue, hrest⟩ := List.forall_mem_cons.mp h
    have hkey : Apart [.scalar (.string key)] := .singleton _
    cases members with
    | nil =>
      rw [memberLexemes_singleton]
      exact hkey.append_cons rfl hvalue
    | cons following members =>
      rw [memberLexemes_cons_cons]
      exact hkey.append_cons rfl (hvalue.append_cons rfl (ih hrest))

/-- No two scalars stand side by side in the lexemes of a value. -/
theorem Within.apart {depth : Nat} {value : Json} (h : value.Within depth) :
    Apart value.lexemes := by
  have hnone : Apart [] := List.isChain_nil
  induction h with
  | scalar h =>
    rw [lexemes_scalar h]
    exact .singleton _
  | array _ ih =>
    rw [lexemes]
    exact hnone.append_cons rfl ((apart_itemLexemes ih).append_cons rfl hnone)
  | object _ ih =>
    rw [lexemes]
    exact hnone.append_cons rfl ((apart_memberLexemes ih).append_cons rfl hnone)

end Apart

/-! ### The steps of the parser -/

/-- A value may come next. -/
def Expected.Starts (expected : Expected) : Prop := expected = .value ∨ expected = .itemOrClose

namespace Parser

/-- What one lexeme does to the parser. -/
inductive Step : Parser → Lexeme → Parser → Prop
  | scalar {expected : Expected} {stack : List Frame} {room : Nat} {value : Json}
      (h : expected.Starts) :
      Step ⟨expected, stack, room⟩ (.scalar value) ⟨.separator value, stack, room⟩
  | openArray {expected : Expected} {stack : List Frame} {room : Nat} (h : expected.Starts) :
      Step ⟨expected, stack, room + 1⟩ .arrayOpen ⟨.itemOrClose, .array [] :: stack, room⟩
  | openObject {expected : Expected} {stack : List Frame} {room : Nat} (h : expected.Starts) :
      Step ⟨expected, stack, room + 1⟩ .objectOpen ⟨.keyOrClose, stack, room⟩
  | closeEmptyArray {items : List Json} {stack : List Frame} {room : Nat} :
      Step ⟨.itemOrClose, .array items :: stack, room⟩ .arrayClose
        ⟨.separator (.array []), stack, room + 1⟩
  | closeEmptyObject {stack : List Frame} {room : Nat} :
      Step ⟨.keyOrClose, stack, room⟩ .objectClose ⟨.separator (.object []), stack, room + 1⟩
  | firstKey {key : String} {stack : List Frame} {room : Nat} :
      Step ⟨.keyOrClose, stack, room⟩ (.scalar (.string key)) ⟨.colon [] key, stack, room⟩
  | nextKey {members : List (String × Json)} {key : String} {stack : List Frame} {room : Nat} :
      Step ⟨.key members, stack, room⟩ (.scalar (.string key)) ⟨.colon members key, stack, room⟩
  | colon {members : List (String × Json)} {key : String} {stack : List Frame} {room : Nat} :
      Step ⟨.colon members key, stack, room⟩ .colon ⟨.value, .object members key :: stack, room⟩
  | nextItem {item : Json} {items : List Json} {stack : List Frame} {room : Nat} :
      Step ⟨.separator item, .array items :: stack, room⟩ .comma
        ⟨.value, .array (item :: items) :: stack, room⟩
  | closeArray {item : Json} {items : List Json} {stack : List Frame} {room : Nat} :
      Step ⟨.separator item, .array items :: stack, room⟩ .arrayClose
        ⟨.separator (.array (item :: items).reverse), stack, room + 1⟩
  | nextMember {value : Json} {members : List (String × Json)} {key : String}
      {stack : List Frame} {room : Nat} :
      Step ⟨.separator value, .object members key :: stack, room⟩ .comma
        ⟨.key ((key, value) :: members), stack, room⟩
  | closeObject {value : Json} {members : List (String × Json)} {key : String}
      {stack : List Frame} {room : Nat} :
      Step ⟨.separator value, .object members key :: stack, room⟩ .objectClose
        ⟨.separator (.object ((key, value) :: members).reverse), stack, room + 1⟩

variable {parser next : Parser} {lexeme : Lexeme}

theorem step_of_startValue (h : parser.startValue lexeme = some next)
    (hstarts : parser.expected.Starts) : Step parser lexeme next := by
  obtain ⟨expected, stack, room⟩ := parser
  cases lexeme with
  | scalar value =>
    cases h
    exact .scalar hstarts
  | arrayOpen =>
    cases room with
    | zero => cases h
    | succ room =>
      cases h
      exact .openArray hstarts
  | objectOpen =>
    cases room with
    | zero => cases h
    | succ room =>
      cases h
      exact .openObject hstarts
  | _ => cases h

theorem step_of_read (h : parser.read lexeme = some next) : Step parser lexeme next := by
  obtain ⟨expected, stack, room⟩ := parser
  unfold read at h
  dsimp only at h
  -- one case for each row of the table of the parser, in its order
  split at h
  · exact step_of_startValue h (.inl rfl)
  · cases h
    exact .closeEmptyArray
  · exact step_of_startValue h (.inr rfl)
  · cases h
    exact .closeEmptyObject
  · cases h
    exact .firstKey
  · cases h
    exact .nextKey
  · cases h
    exact .colon
  · cases h
    exact .nextItem
  · cases h
    exact .closeArray
  · cases h
    exact .nextMember
  · cases h
    exact .closeObject
  · cases h

end Parser

/-! ### From the text to the value -/

/-- The lexemes of an array or object that is open, up to the value under way. -/
def Frame.lexemes : Frame → List Lexeme
  | .array items => .arrayOpen :: itemsBefore items.reverse
  | .object members key =>
    .objectOpen :: (membersBefore members.reverse ++ [.scalar (.string key), .colon])

/-- The lexemes of what is not yet in a frame. -/
def Expected.lexemes : Expected → List Lexeme
  | .value | .itemOrClose => []
  | .keyOrClose => [.objectOpen]
  | .key members => .objectOpen :: membersBefore members.reverse
  | .colon members name =>
    .objectOpen :: (membersBefore members.reverse ++ [.scalar (.string name)])
  | .separator finished => finished.lexemes

namespace Parser

/-- The lexemes that the parser has read. -/
def lexemes (parser : Parser) : List Lexeme :=
  parser.stack.reverse.flatMap Frame.lexemes ++ parser.expected.lexemes

/-- Where the first item of an array may come, the array has no item. -/
def Opened (parser : Parser) : Prop :=
  parser.expected = .itemOrClose → ∃ stack, parser.stack = .array [] :: stack

/-- The parser has read these lexemes. -/
structure HasRead (parser : Parser) (read : List Lexeme) : Prop where
  lexemes_eq : parser.lexemes = read
  opened : parser.Opened

variable {parser next : Parser} {lexeme : Lexeme}

theorem hasRead_of_ne {read : List Lexeme} (hne : parser.expected ≠ .itemOrClose)
    (h : parser.lexemes = read) : parser.HasRead read :=
  ⟨h, fun hopen => absurd hopen hne⟩

/-- Where a value starts, all that has been read is in the frames. -/
theorem lexemes_of_starts {expected : Expected} {stack : List Frame} {room : Nat}
    (h : expected.Starts) :
    lexemes ⟨expected, stack, room⟩ = stack.reverse.flatMap Frame.lexemes := by
  rcases h with rfl | rfl <;> exact List.append_nil _

/-- The state of the parser holds what it has read, lexeme for lexeme. -/
theorem Step.hasRead (h : Step parser lexeme next) (hopened : parser.Opened)
    (hscalar : lexeme.HoldsScalar) : next.HasRead (parser.lexemes ++ [lexeme]) := by
  cases h with
  | @scalar _ _ _ value h =>
    refine hasRead_of_ne Expected.noConfusion ?_
    rw [lexemes_of_starts h]
    simp [lexemes, Expected.lexemes, lexemes_scalar (hscalar value rfl)]
  | @openArray _ stack _ h =>
    refine ⟨?_, fun _ => ⟨stack, rfl⟩⟩
    rw [lexemes_of_starts h]
    simp [lexemes, Expected.lexemes, Frame.lexemes, itemsBefore]
  | openObject h =>
    refine hasRead_of_ne Expected.noConfusion ?_
    rw [lexemes_of_starts h]
    simp [lexemes, Expected.lexemes]
  | closeEmptyArray =>
    obtain ⟨_, hstack⟩ := hopened rfl
    cases hstack
    refine hasRead_of_ne Expected.noConfusion ?_
    simp [lexemes, Expected.lexemes, Frame.lexemes, itemsBefore, Json.lexemes, itemLexemes]
  | closeEmptyObject =>
    refine hasRead_of_ne Expected.noConfusion ?_
    simp [lexemes, Expected.lexemes, Json.lexemes, memberLexemes]
  | firstKey =>
    refine hasRead_of_ne Expected.noConfusion ?_
    simp [lexemes, Expected.lexemes, membersBefore]
  | nextKey =>
    refine hasRead_of_ne Expected.noConfusion ?_
    simp [lexemes, Expected.lexemes]
  | colon =>
    refine hasRead_of_ne Expected.noConfusion ?_
    simp [lexemes, Expected.lexemes, Frame.lexemes]
  | nextItem =>
    refine hasRead_of_ne Expected.noConfusion ?_
    simp [lexemes, Expected.lexemes, Frame.lexemes, itemsBefore]
  | closeArray =>
    refine hasRead_of_ne Expected.noConfusion ?_
    simp [lexemes, Expected.lexemes, Frame.lexemes, Json.lexemes, itemLexemes_append]
  | nextMember =>
    refine hasRead_of_ne Expected.noConfusion ?_
    simp [lexemes, Expected.lexemes, Frame.lexemes, membersBefore]
  | closeObject =>
    refine hasRead_of_ne Expected.noConfusion ?_
    simp [lexemes, Expected.lexemes, Frame.lexemes, Json.lexemes, memberLexemes_append]

/-- Where a document ends, its value is finished and nothing is open. -/
theorem eq_of_finish? {value : Json} (h : parser.finish? = some value) :
    ∃ room, parser = ⟨.separator value, [], room⟩ := by
  obtain ⟨expected, stack, room⟩ := parser
  cases expected with
  | separator finished =>
    cases stack with
    | nil =>
      cases h
      exact ⟨room, rfl⟩
    | cons => cases h
  | _ => cases h

/-- A parser that has ended on a value has read the lexemes of the value and no others. -/
theorem lexemes_of_foldlM {items : List Lexeme} {value : Json} {depth room : Nat}
    (hscalar : ∀ lexeme ∈ items, lexeme.HoldsScalar)
    (hfold : items.foldlM read ⟨.value, [], depth⟩ = some ⟨.separator value, [], room⟩) :
    items = value.lexemes := by
  have hread : HasRead ⟨.separator value, [], room⟩ items := by
    refine foldlM_invariant (P := fun front parser => parser.HasRead front) ?_ ?_ hfold
    · exact hasRead_of_ne Expected.noConfusion rfl
    · rintro _ parser lexeme next hmem ⟨rfl, hopened⟩ hread
      exact (step_of_read hread).hasRead hopened (hscalar lexeme hmem)
  exact hread.lexemes_eq.symm

end Parser

variable {depth : Nat} {text : List Char} {value : Json}

/-- A text is read as the value on which the parser ends with nothing open. -/
theorem parse?_eq_some_iff : parse? depth text = some value ↔ ∃ items room,
    Lexeme.scan text = some items ∧
      items.foldlM Parser.read ⟨.value, [], depth⟩ = some ⟨.separator value, [], room⟩ := by
  constructor
  · intro h
    obtain ⟨items, hscan, h⟩ := Option.bind_eq_some_iff.mp h
    obtain ⟨parser, hfold, hfinish⟩ := Option.bind_eq_some_iff.mp h
    obtain ⟨room, rfl⟩ := Parser.eq_of_finish? hfinish
    exact ⟨items, room, hscan, hfold⟩
  · rintro ⟨items, room, hscan, hfold⟩
    simp [parse?, hscan, hfold, Parser.finish?]

/-- A document spells its value. -/
theorem spelledBy_of_parse? (h : parse? depth text = some value) : value.SpelledBy text := by
  obtain ⟨items, room, hscan, hfold⟩ := parse?_eq_some_iff.mp h
  obtain rfl := Parser.lexemes_of_foldlM (Lexeme.holdsScalar_of_scan hscan) hfold
  exact Lexeme.spaced_of_scan hscan

/-! ### The depth of the value -/

/-- The finished values in an array or object that is open are within this depth. -/
def Frame.Within (depth : Nat) : Frame → Prop
  | .array items => ∀ item ∈ items, item.Within depth
  | .object members _ => ∀ member ∈ members, member.2.Within depth

theorem Frame.Within.item {depth : Nat} {items : List Json} {item : Json}
    (h : (Frame.array items).Within depth) (hitem : item.Within depth) :
    ∀ i ∈ item :: items, i.Within depth := List.forall_mem_cons.mpr ⟨hitem, h⟩

theorem Frame.Within.member {depth : Nat} {members : List (String × Json)} {key : String}
    {value : Json} (h : (Frame.object members key).Within depth) (hvalue : value.Within depth) :
    ∀ member ∈ (key, value) :: members, member.2.Within depth :=
  List.forall_mem_cons.mpr ⟨hvalue, h⟩

/-- The room that the open arrays and objects leave of the depth, with the finished values in each of
them within the room that is left there. -/
inductive Leaves (depth : Nat) : List Frame → Nat → Prop
  | nil : Leaves depth [] depth
  | cons {frame : Frame} {stack : List Frame} {room : Nat} (hframe : frame.Within room)
      (h : Leaves depth stack (room + 1)) : Leaves depth (frame :: stack) room

namespace Parser

/-- The parser keeps to the depth.  An object whose next key is awaited is open and in no frame. -/
def InDepth (depth : Nat) (parser : Parser) : Prop :=
  match parser.expected with
  | .value | .itemOrClose => Leaves depth parser.stack parser.room
  | .keyOrClose => Leaves depth parser.stack (parser.room + 1)
  | .key members | .colon members _ =>
    (∀ member ∈ members, member.2.Within parser.room) ∧ Leaves depth parser.stack (parser.room + 1)
  | .separator finished => finished.Within parser.room ∧ Leaves depth parser.stack parser.room

variable {parser next : Parser} {lexeme : Lexeme} {depth : Nat}

theorem InDepth.leaves_of_starts {expected : Expected} {stack : List Frame} {room : Nat}
    (h : InDepth depth ⟨expected, stack, room⟩) (hstarts : expected.Starts) :
    Leaves depth stack room := by
  rcases hstarts with rfl | rfl <;> exact h

/-- A step of the parser keeps to the depth. -/
theorem Step.inDepth (h : Step parser lexeme next) (hdepth : parser.InDepth depth)
    (hscalar : lexeme.HoldsScalar) : next.InDepth depth := by
  cases h with
  | @scalar _ _ _ value h => exact ⟨.scalar (hscalar value rfl), hdepth.leaves_of_starts h⟩
  | openArray h => exact .cons (by simp [Frame.Within]) (hdepth.leaves_of_starts h)
  | openObject h => exact hdepth.leaves_of_starts h
  | closeEmptyArray =>
    obtain _ | ⟨_, hleaves⟩ := hdepth
    exact ⟨.array (by simp), hleaves⟩
  | closeEmptyObject => exact ⟨.object (by simp), hdepth⟩
  | firstKey => exact ⟨by simp, hdepth⟩
  | nextKey => exact hdepth
  | colon =>
    obtain ⟨hmembers, hleaves⟩ := hdepth
    exact .cons hmembers hleaves
  | nextItem =>
    obtain ⟨hitem, _ | ⟨hframe, hleaves⟩⟩ := hdepth
    exact .cons (hframe.item hitem) hleaves
  | closeArray =>
    obtain ⟨hitem, _ | ⟨hframe, hleaves⟩⟩ := hdepth
    exact ⟨.array fun i hi => hframe.item hitem i (List.mem_reverse.mp hi), hleaves⟩
  | nextMember =>
    obtain ⟨hvalue, _ | ⟨hframe, hleaves⟩⟩ := hdepth
    exact ⟨hframe.member hvalue, hleaves⟩
  | closeObject =>
    obtain ⟨hvalue, _ | ⟨hframe, hleaves⟩⟩ := hdepth
    exact ⟨.object fun m hm => hframe.member hvalue m (List.mem_reverse.mp hm), hleaves⟩

/-- A parser that has ended on a value has kept to the depth. -/
theorem within_of_foldlM {items : List Lexeme} {value : Json} {room : Nat}
    (hscalar : ∀ lexeme ∈ items, lexeme.HoldsScalar)
    (hfold : items.foldlM read ⟨.value, [], depth⟩ = some ⟨.separator value, [], room⟩) :
    value.Within depth := by
  have hdepth : InDepth depth ⟨.separator value, [], room⟩ := by
    refine foldlM_invariant (P := fun _ parser => parser.InDepth depth) ?_ ?_ hfold
    · exact Leaves.nil
    · intro _ parser lexeme next hmem hdepth hread
      exact (step_of_read hread).inDepth hdepth (hscalar lexeme hmem)
  obtain ⟨hvalue, hleaves⟩ := hdepth
  -- nothing is open, so all of the depth is left
  cases hleaves
  exact hvalue

end Parser

/-- The value of a document keeps to the depth. -/
theorem within_of_parse? (h : parse? depth text = some value) : value.Within depth := by
  obtain ⟨items, room, hscan, hfold⟩ := parse?_eq_some_iff.mp h
  exact Parser.within_of_foldlM (Lexeme.holdsScalar_of_scan hscan) hfold

/-! ### From the value to the text -/

/-- The parser reads the lexemes of the value wherever a value may come and there is this room. -/
def Reads (room : Nat) (value : Json) : Prop :=
  ∀ stack, value.lexemes.foldlM Parser.read ⟨.value, stack, room⟩ =
    some ⟨.separator value, stack, room⟩

theorem Reads.scalar {value : Json} (h : value.isScalar = true) (room : Nat) :
    Reads room value := by
  intro stack
  rw [lexemes_scalar h]
  rfl

/-- The items of an array after those that have been read, and its end. -/
theorem foldlM_read_items {room : Nat} {items : List Json}
    (h : ∀ item ∈ items, Reads room item) (hne : items ≠ []) (done : List Json)
    (stack : List Frame) :
    (itemLexemes items ++ [Lexeme.arrayClose]).foldlM Parser.read
      ⟨.value, .array done :: stack, room⟩ =
        some ⟨.separator (.array (done.reverse ++ items)), stack, room + 1⟩ := by
  induction items generalizing done with
  | nil => exact absurd rfl hne
  | cons item items ih =>
    have hitem := h item List.mem_cons_self (.array done :: stack)
    cases items with
    | nil =>
      rw [itemLexemes_singleton, List.foldlM_append, hitem]
      simp [Parser.read]
    | cons following items =>
      have hrest := ih (fun i hi => h i (List.mem_cons_of_mem _ hi)) (List.cons_ne_nil _ _)
        (item :: done)
      rw [itemLexemes_cons_cons, List.append_assoc, List.foldlM_append, hitem]
      simp only [Option.bind_eq_bind, Option.bind_some, List.cons_append, List.foldlM_cons,
        Parser.read, hrest]
      simp

/-- No value starts with the end of an array. -/
theorem exists_lexemes_eq_cons (value : Json) :
    ∃ first rest, value.lexemes = first :: rest ∧ first ≠ .arrayClose := by
  cases value with
  | array items => exact ⟨_, _, lexemes.eq_1 items, Lexeme.noConfusion⟩
  | object members => exact ⟨_, _, lexemes.eq_2 members, Lexeme.noConfusion⟩
  | _ => exact ⟨_, _, lexemes_scalar rfl, Lexeme.noConfusion⟩

/-- Where the end of an array may come as well, its first item is read all the same. -/
theorem foldlM_read_first {room : Nat} (value : Json) (rest : List Lexeme) (stack : List Frame) :
    (value.lexemes ++ rest).foldlM Parser.read ⟨.itemOrClose, stack, room⟩ =
      (value.lexemes ++ rest).foldlM Parser.read ⟨.value, stack, room⟩ := by
  obtain ⟨first, tail, hlexemes, hfirst⟩ := exists_lexemes_eq_cons value
  have hread : Parser.read ⟨.itemOrClose, stack, room⟩ first =
      Parser.read ⟨.value, stack, room⟩ first := by
    rw [Parser.read.eq_3 _ _ _ fun _ _ _ => hfirst, Parser.read.eq_1]
    cases first <;> rfl
  rw [hlexemes, List.cons_append, List.foldlM_cons, List.foldlM_cons, hread]

theorem exists_itemLexemes_eq_append (item : Json) (items : List Json) :
    ∃ rest, itemLexemes (item :: items) = item.lexemes ++ rest := by
  cases items with
  | nil => exact ⟨[], by rw [itemLexemes_singleton, List.append_nil]⟩
  | cons following items => exact ⟨_, itemLexemes_cons_cons item following items⟩

theorem Reads.array {room : Nat} {items : List Json} (h : ∀ item ∈ items, Reads room item) :
    Reads (room + 1) (.array items) := by
  intro stack
  have hopen : Parser.read ⟨.value, stack, room + 1⟩ .arrayOpen =
      some ⟨.itemOrClose, .array [] :: stack, room⟩ := rfl
  rw [lexemes, List.foldlM_cons, hopen]
  cases items with
  | nil => simp [itemLexemes, Parser.read]
  | cons item items =>
    have hitems := foldlM_read_items h (List.cons_ne_nil _ _) [] stack
    obtain ⟨rest, hrest⟩ := exists_itemLexemes_eq_append item items
    rw [hrest, List.append_assoc] at hitems ⊢
    exact (foldlM_read_first item _ _).trans hitems

/-- A key and its colon. -/
theorem foldlM_read_key {room : Nat} (key : String) (rest : List Lexeme)
    (done : List (String × Json)) (stack : List Frame) :
    (.scalar (.string key) :: .colon :: rest).foldlM Parser.read ⟨.key done, stack, room⟩ =
      rest.foldlM Parser.read ⟨.value, .object done key :: stack, room⟩ := rfl

/-- The members of an object after those that have been read, and its end. -/
theorem foldlM_read_members {room : Nat} {members : List (String × Json)}
    (h : ∀ member ∈ members, Reads room member.2) (hne : members ≠ [])
    (done : List (String × Json)) (stack : List Frame) :
    (memberLexemes members ++ [Lexeme.objectClose]).foldlM Parser.read ⟨.key done, stack, room⟩ =
      some ⟨.separator (.object (done.reverse ++ members)), stack, room + 1⟩ := by
  induction members generalizing done with
  | nil => exact absurd rfl hne
  | cons member members ih =>
    obtain ⟨key, value⟩ := member
    have hvalue := h (key, value) List.mem_cons_self (.object done key :: stack)
    cases members with
    | nil =>
      rw [memberLexemes_singleton, List.cons_append, List.cons_append, foldlM_read_key,
        List.foldlM_append, hvalue]
      simp [Parser.read]
    | cons following members =>
      have hrest := ih (fun m hm => h m (List.mem_cons_of_mem _ hm)) (List.cons_ne_nil _ _)
        ((key, value) :: done)
      rw [memberLexemes_cons_cons, List.cons_append, List.cons_append, List.append_assoc,
        foldlM_read_key, List.foldlM_append, hvalue]
      simp only [Option.bind_eq_bind, Option.bind_some, List.cons_append, List.foldlM_cons,
        Parser.read, hrest]
      simp

theorem exists_memberLexemes_eq_cons (member : String × Json) (members : List (String × Json)) :
    ∃ rest, memberLexemes (member :: members) = .scalar (.string member.1) :: rest := by
  cases members with
  | nil => exact ⟨_, memberLexemes_singleton member.1 member.2⟩
  | cons following members => exact ⟨_, memberLexemes_cons_cons member.1 member.2 following members⟩

theorem Reads.object {room : Nat} {members : List (String × Json)}
    (h : ∀ member ∈ members, Reads room member.2) : Reads (room + 1) (.object members) := by
  intro stack
  have hopen : Parser.read ⟨.value, stack, room + 1⟩ .objectOpen =
      some ⟨.keyOrClose, stack, room⟩ := rfl
  rw [lexemes, List.foldlM_cons, hopen]
  cases members with
  | nil => simp [memberLexemes, Parser.read]
  | cons member members =>
    have hmembers := foldlM_read_members h (List.cons_ne_nil _ _) [] stack
    obtain ⟨rest, hrest⟩ := exists_memberLexemes_eq_cons member members
    -- the first key is read where the end of the object may come as well
    rw [hrest] at hmembers ⊢
    exact hmembers

/-- A value that keeps to the depth is read from its lexemes. -/
theorem Within.reads (h : value.Within depth) : Reads depth value := by
  induction h with
  | scalar h => exact .scalar h _
  | array _ ih => exact .array ih
  | object _ ih => exact .object ih

/-- A document that spells a plain value within the depth is read as the value. -/
theorem parse?_of_spelledBy (hplain : value.Plain) (hspelled : value.SpelledBy text)
    (hwithin : value.Within depth) : parse? depth text = some value := by
  obtain ⟨tokens, hspells, hspaced⟩ := hspelled
  have hscan := Lexeme.scan_of_spaced hspells hspaced hplain hwithin.apart
  exact parse?_eq_some_iff.mpr ⟨value.lexemes, depth, hscan, hwithin.reads []⟩

end Json

end TapeMachine
