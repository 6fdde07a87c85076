import Grandma.Shapes

/-!
# Reading a package

A package as the server writes it is a list of commands, each a name and its
parameters. Reading one pushes exactly its known commands. Reading is not
guarded beyond the syntax of JSON: an element of the wrong shape throws after
the commands in front of it have been pushed, and what is not a package at all
may still pass for one without commands.
-/

set_option autoImplicit false

namespace Grandma.Decoding
open CommandQueue Session Shapes Statuses

structure WireCommand where
  name : Str
  params : List Str
  deriving DecidableEq

def WireCommand.json (c : WireCommand) : Json :=
  .array (.string c.name::c.params.map Json.string)

def WireCommand.Ends (c : WireCommand) : Prop := c.name = "END".toList

instance (c : WireCommand) : Decidable c.Ends := inferInstanceAs (Decidable (_ = _))

def packageJson (cs : List WireCommand) : Json :=
  .object [("CMD".toList,.array (cs.map WireCommand.json))]

def decoded (c : WireCommand) : Option Command :=
  (typeNamed c.name).map (fun type => { type := type, parameter := c.params })

/-- What one element amounts to: END, a known command, or nothing. -/
theorem decode_wire (c : WireCommand) : decodeCommand c.json =
    .ok (if c.Ends then .finish
      else match decoded c with
        | some command => .push command
        | none => .ignore) := by
  rw [WireCommand.json, decode_array, parameters_strings, command_type, decoded]
  by_cases hend : c.name = "END".toList
  · simp [Json.equalsText, WireCommand.Ends, hend]
  · have hname : (Json.string c.name).equalsText "END".toList = false := decide_eq_false hend
    rw [hname, if_neg (show ¬ c.Ends from hend)]
    cases typeNamed c.name <;> rfl

theorem end_decodes_nothing (c : WireCommand) (h : c.Ends) : decoded c = none := by
  have hname : c.name = "END".toList := h
  rw [decoded, hname]
  rfl

theorem parse_wire (cs : List WireCommand) (b : Bool) (q : CommandQueue) :
    parseCommands b (cs.map WireCommand.json) q =
      (.ok (b && !cs.any (fun c => c.Ends)),
        { q with commands := q.commands++cs.filterMap decoded }) := by
  induction cs generalizing b q with
  | nil => simp [parseCommands]
  | cons c cs ih =>
    rw [List.map_cons, parseCommands, decode_wire]
    by_cases hend : c.Ends
    · simp [hend, ih, end_decodes_nothing c hend]
    · cases hdec : decoded c with
      | none => simp [hend, ih, hdec]
      | some command => simp [hend, ih, hdec, pushCommand]

/-- A package is read as the list of its known commands, in order and with all
their parameters, and it ends the session exactly when one of its commands is
END, wherever that stands. -/
theorem package_decoded (codec : Codec) (text : Str) (cs : List WireCommand) (q : CommandQueue)
    (hparse : codec.parse text = .ok (packageJson cs)) :
    ∃ b, parseP2 codec text q =
        (.ok b,{ q with commands := q.commands++cs.filterMap decoded }) ∧
      (b = false ↔ ∃ c ∈ cs, c.Ends) := by
  have hread : parseP2 codec text q =
      parseCommands true (cs.map WireCommand.json) q := by
    rw [parseP2, hparse]
    rfl
  have hend : (true && !cs.any (fun c => c.Ends)) = false ↔ ∃ c ∈ cs, c.Ends := by
    simp
  exact ⟨_,hread.trans (parse_wire cs true q),hend⟩

def sampleWire : List WireCommand :=
  [⟨"PUT".toList,["a".toList]⟩,⟨"END".toList,[]⟩,⟨"HGET".toList,["s".toList,"c".toList]⟩]

theorem package_decoded_sample :
    ∃ b, parseP2 (Json.tableCodec [((packageJson sampleWire).print,packageJson sampleWire)])
        (packageJson sampleWire).print .empty =
        (.ok b,{ CommandQueue.empty with
          commands := [] ++ [⟨.HGET,["s".toList,"c".toList]⟩] }) ∧
      (b = false ↔ ∃ c ∈ sampleWire, c.Ends) :=
  package_decoded (Json.tableCodec [((packageJson sampleWire).print,packageJson sampleWire)])
    (packageJson sampleWire).print sampleWire .empty (by simp [Json.tableCodec, OrderedMap.lookup])

def WellFormedText (codec : Codec) (text : Str) : Prop :=
  ∃ (es : List (Str × Json)) (cs : List WireCommand), codec.parse text = .ok (.object es) ∧
    OrderedMap.lookup "CMD".toList es = some (.array (cs.map WireCommand.json))

def AllOrNothing (codec : Codec) (text : Str) (q : CommandQueue) : Prop :=
  ∃ b, (parseP2 codec text q).1 = .ok b ∧
    (¬ WellFormedText codec text → b = false ∧ (parseP2 codec text q).2 = q)

/-- Not a package, and still harmless: END is among the elements, none of them
throws, and none of them is a known command. -/
def Harmless (jcommands : Json) : Prop :=
  (∃ j ∈ jcommands.elements, IsEnd j) ∧ ∀ j ∈ jcommands.elements, Readable j ∧ ¬ IsCommand j

theorem wire_readable (c : WireCommand) : Readable c.json := by
  rw [← decode_readable, decode_wire]
  exact ⟨_,rfl⟩

theorem no_package (codec : Codec) (text : Str) (r : Except Fault Json)
    (hparse : codec.parse text = r) (hr : ∀ es, r ≠ .ok (.object es)) :
    ¬ WellFormedText codec text := by
  rintro ⟨es,cs,h,-⟩
  exact hr es (hparse.symm.trans h)

theorem object_read (codec : Codec) (text : Str) (q : CommandQueue) (es : List (Str × Json))
    (hparse : codec.parse text = .ok (.object es)) (jcommands : Json)
    (hcmd : (OrderedMap.lookup "CMD".toList es).getD .null = jcommands) :
    AllOrNothing codec text q ↔ (∀ j ∈ jcommands.elements, Readable j) ∧
      (¬ WellFormedText codec text → Harmless jcommands) := by
  have hread : parseP2 codec text q = parseCommands true jcommands.elements q := by
    rw [parseP2, hparse]
    simp only [Json.member, hcmd]
  rw [AllOrNothing, hread, parse_queued, ← no_fault]
  cases hfault : firstFault jcommands.elements with
  | some e => simp
  | none =>
    have hreadable := (no_fault jcommands.elements).mp hfault
    have hqueue : ({ q with commands := q.commands++queuedFrom jcommands.elements } :
        CommandQueue) = q ↔ queuedFrom jcommands.elements = [] := by
      cases q
      simp
    have hharmless : Harmless jcommands ↔ hasEnd jcommands.elements = true ∧
        queuedFrom jcommands.elements = [] := by
      rw [Harmless, has_end, none_queued _ hreadable]
      exact and_congr_right' ⟨fun h j hj => (h j hj).2,fun h j hj => ⟨hreadable j hj,h j hj⟩⟩
    simp only [hqueue, hharmless]
    by_cases hwf : WellFormedText codec text <;> simp [hwf]

theorem package_readable (codec : Codec) (text : Str) (es : List (Str × Json))
    (hparse : codec.parse text = .ok (.object es)) (hwf : WellFormedText codec text) :
    ∀ j ∈ ((OrderedMap.lookup "CMD".toList es).getD .null).elements, Readable j := by
  obtain ⟨es',cs,h,hcmd⟩ := hwf
  rw [hparse] at h
  cases h
  rw [hcmd]
  intro j hj
  obtain ⟨c,-,rfl⟩ := List.mem_map.mp hj
  exact wire_readable c

theorem harmless_member (es : List (Str × Json)) :
    Harmless ((OrderedMap.lookup "CMD".toList es).getD .null) ↔
      ∃ jcommands, OrderedMap.lookup "CMD".toList es = some jcommands ∧ Harmless jcommands := by
  cases OrderedMap.lookup "CMD".toList es with
  | none =>
    have hnull : ¬ Harmless .null := by
      rintro ⟨⟨j,hj,-⟩,-⟩
      cases hj
    simpa using hnull
  | some jcommands => simp

theorem object_atomic (codec : Codec) (text : Str) (q : CommandQueue) (es : List (Str × Json))
    (hparse : codec.parse text = .ok (.object es)) :
    AllOrNothing codec text q ↔ WellFormedText codec text ∨
      ∃ jcommands, OrderedMap.lookup "CMD".toList es = some jcommands ∧ Harmless jcommands := by
  rw [object_read codec text q es hparse _ rfl, ← harmless_member]
  by_cases hwf : WellFormedText codec text
  · have hreadable := package_readable codec text es hparse hwf
    exact ⟨fun _ => Or.inl hwf,fun _ => ⟨hreadable,fun h => absurd hwf h⟩⟩
  · constructor
    · intro h
      exact Or.inr (h.2 hwf)
    · intro h
      have hharmless := h.resolve_left hwf
      exact ⟨fun j hj => (hharmless.2 j hj).1,fun _ => hharmless⟩

/-- Reading is all or nothing exactly on the texts that raise the parse error,
on packages, and on objects with a harmless command list. -/
theorem reading_atomic_iff (codec : Codec) (text : Str) (q : CommandQueue) :
    AllOrNothing codec text q ↔
      codec.parse text = .error .parseError ∨ WellFormedText codec text ∨
      ∃ es jcommands, codec.parse text = .ok (.object es) ∧
        OrderedMap.lookup "CMD".toList es = some jcommands ∧ Harmless jcommands := by
  cases hparse : codec.parse text with
  | error e =>
    have hwf := no_package codec text _ hparse (by simp)
    rw [AllOrNothing, parseP2, hparse]
    cases e <;> simp [hwf]
  | ok j =>
    cases j with
    | object es =>
      rw [object_atomic codec text q es hparse]
      simp
    | null =>
      have hwf := no_package codec text _ hparse (by simp)
      rw [AllOrNothing, parseP2, hparse]
      simp [Json.member, Json.elements, parseCommands, hwf]
    | _ =>
      have hwf := no_package codec text _ hparse (by simp)
      rw [AllOrNothing, parseP2, hparse]
      simp [Json.member, hwf]

/-- A command in front of a number: reading throws, and the command is queued. -/
theorem command_before_number :
    ¬ AllOrNothing
      (Json.tableCodec [("\x7b\"CMD\":[[\"GET\"],5]\x7d".toList,
        .object [("CMD".toList,.array [.array [.string "GET".toList],.number 5])])])
      "\x7b\"CMD\":[[\"GET\"],5]\x7d".toList .empty := by
  rintro ⟨b,hb,-⟩
  cases hb

end Grandma.Decoding
