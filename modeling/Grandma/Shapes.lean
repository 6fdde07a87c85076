import Grandma.Statuses

/-!
# The shape of a command list

What reading makes of a command list depends on the shape of its elements:
which of them can be read at all, which are END, and which are known commands.
An element that cannot be read throws, and nothing behind it is looked at.
-/

set_option autoImplicit false

namespace Grandma.Shapes
open CommandQueue Session Statuses

def pushedTypes : List CommandType :=
  [.CONT,.HGET,.HPUT,.HPOST,.DELETE,.EXEC,.GET,.SHOW,.DEFAULT,.SUB,.UNSUB]

def typeNamed (name : Str) : Option CommandType :=
  pushedTypes.find? (fun type => commandName type = name)

theorem find_named (name : Str) (type : CommandType) (types : List CommandType) :
    (type::types).find? (fun type => commandName type = name) =
      if (Json.string name).equalsText (commandName type) then some type
      else types.find? (fun type => commandName type = name) := by
  by_cases h : commandName type = name
  · simp [Json.equalsText, h]
  · have h' : name ≠ commandName type := Ne.symm h
    simp [Json.equalsText, h, h']

theorem command_type (name : Str) : commandType (.string name) = typeNamed name := by
  rw [typeNamed, pushedTypes]
  simp only [find_named, List.find?_nil]
  rfl

def IsEnd : Json → Prop
  | .array (name::_) => name = .string "END".toList
  | _ => False

def AllStrings (js : List Json) : Prop := ∀ j ∈ js, ∃ s, j = .string s

/-- An element is read without an exception: it is null, an empty array or END,
or everything behind its name is a string. -/
def Readable : Json → Prop
  | .null => True
  | .array [] => True
  | .array (name::params) => name = .string "END".toList ∨ AllStrings params
  | _ => False

def IsCommand (j : Json) : Prop :=
  ∃ type name params, typeNamed name = some type ∧ j = .array (.string name::params)

def isCommand : Json → Bool
  | .array (.string name::_) => (typeNamed name).isSome
  | _ => false

theorem is_command (j : Json) : isCommand j = true ↔ IsCommand j := by
  constructor
  · intro h
    cases j with
    | array js =>
      cases js with
      | nil => cases h
      | cons name params =>
        cases name with
        | string s =>
          obtain ⟨type,htype⟩ := Option.isSome_iff_exists.mp h
          exact ⟨type,s,params,htype,rfl⟩
        | _ => cases h
    | _ => cases h
  · rintro ⟨type,name,params,htype,rfl⟩
    simp [isCommand, htype]

instance (j : Json) : Decidable (IsCommand j) := decidable_of_iff _ (is_command j)

def HgetAt (js : List Json) (i : ℕ) (params : List Str) : Prop :=
  (js.filter (fun j => IsCommand j))[i]? =
    some (.array (.string "HGET".toList::params.map Json.string))

/-- There is a known command that can be read, and nothing in front of it that
cannot. -/
def ReadsCommand (js : List Json) : Prop :=
  ∃ front j back, js = front++j::back ∧ (∀ i ∈ front, Readable i) ∧ Readable j ∧ IsCommand j

def GoesOn (js : List Json) : Prop := (∀ j ∈ js, Readable j) ∧ ∀ j ∈ js, ¬ IsEnd j

/-- The commands that reading pushes: those in front of the first element that
throws. -/
def queuedFrom : List Json → List Command
  | [] => []
  | j::js =>
    match decodeCommand j with
    | .error _ => []
    | .ok (.push c) => c::queuedFrom js
    | .ok _ => queuedFrom js

def firstFault : List Json → Option Fault
  | [] => none
  | j::js =>
    match decodeCommand j with
    | .error e => some e
    | .ok _ => firstFault js

def hasEnd : List Json → Bool
  | [] => false
  | j::js =>
    match decodeCommand j with
    | .ok .finish => true
    | _ => hasEnd js

theorem parse_queued (js : List Json) (b : Bool) (q : CommandQueue) :
    parseCommands b js q =
      (match firstFault js with
        | some e => .error e
        | none => .ok (b && !hasEnd js),{ q with commands := q.commands++queuedFrom js }) := by
  induction js generalizing b q with
  | nil => simp [parseCommands, firstFault, hasEnd, queuedFrom]
  | cons j js ih =>
    cases h : decodeCommand j with
    | error e => simp [parseCommands, firstFault, queuedFrom, h]
    | ok d =>
      cases d with
      | finish => simp [parseCommands, firstFault, hasEnd, queuedFrom, h, ih]
      | push c => simp [parseCommands, firstFault, hasEnd, queuedFrom, h, ih, pushCommand]
      | ignore => simp [parseCommands, firstFault, hasEnd, queuedFrom, h, ih]

theorem parameters_read (js : List Json) : (∃ ss, parameters js = .ok ss) ↔ AllStrings js := by
  induction js with
  | nil => simp [parameters, AllStrings]
  | cons j js ih =>
    rw [AllStrings, List.forall_mem_cons, parameters]
    cases j with
    | string s =>
      rw [← AllStrings, ← ih]
      simp only [Json.asString]
      cases parameters js <;> simp
    | _ => simp [Json.asString]

theorem equals_text (j : Json) (text : Str) : j.equalsText text = true ↔ j = .string text := by
  cases j <;> simp [Json.equalsText]

theorem decode_readable (j : Json) : (∃ d, decodeCommand j = .ok d) ↔ Readable j := by
  cases j with
  | null => exact ⟨fun _ => trivial,fun _ => ⟨.ignore,rfl⟩⟩
  | array js =>
    cases js with
    | nil => exact ⟨fun _ => trivial,fun _ => ⟨.ignore,rfl⟩⟩
    | cons name params =>
      rw [decode_array, Readable, ← equals_text, ← parameters_read]
      cases name.equalsText "END".toList with
      | true => simp
      | false => cases parameters params <;> simp [Except.map]
  | _ => simp [decodeCommand, Json.first, Readable]

theorem decode_end (j : Json) : decodeCommand j = .ok .finish ↔ IsEnd j := by
  cases j with
  | null => exact ⟨fun h => (nomatch h),fun h => h.elim⟩
  | array js =>
    cases js with
    | nil => exact ⟨fun h => (nomatch h),fun h => h.elim⟩
    | cons name params =>
      rw [decode_array, IsEnd, ← equals_text]
      cases name.equalsText "END".toList with
      | true => simp
      | false =>
        cases parameters params with
        | error e => simp [Except.map]
        | ok ss => cases commandType name <;> simp [Except.map]
  | _ => simp [decodeCommand, Json.first, IsEnd]

theorem command_named (name : Json) (type : CommandType) :
    commandType name = some type ↔ ∃ s, typeNamed s = some type ∧ name = .string s := by
  constructor
  · intro h
    cases name with
    | string s => exact ⟨s,(command_type s).symm.trans h,rfl⟩
    | _ => cases h
  · rintro ⟨s,h,rfl⟩
    exact (command_type s).trans h

theorem named_type (name : Str) (type : CommandType) (h : typeNamed name = some type) :
    commandName type = name ∧ type ≠ .END := by
  have hmem : type ∈ pushedTypes := List.mem_of_find?_eq_some h
  have hname := List.find?_some h
  simp only [decide_eq_true_eq] at hname
  have hend : CommandType.END ∉ pushedTypes := by decide
  constructor
  · exact hname
  · rintro rfl
    exact hend hmem

theorem parameters_ok (js : List Json) (ss : List Str) (h : parameters js = .ok ss) :
    js = ss.map Json.string := by
  induction js generalizing ss with
  | nil =>
    cases h
    rfl
  | cons j js ih =>
    rw [parameters] at h
    cases j with
    | string s =>
      cases hparams : parameters js with
      | error e =>
        rw [hparams] at h
        cases h
      | ok rest =>
        rw [hparams] at h
        cases h
        rw [List.map_cons, ← ih rest hparams]
    | _ => cases h

theorem decode_pushed (j : Json) (c : Command) (h : decodeCommand j = .ok (.push c)) :
    typeNamed (commandName c.type) = some c.type ∧ j = commandJson c := by
  cases j with
  | array js =>
    cases js with
    | nil => cases h
    | cons name params =>
      rw [decode_array] at h
      split at h
      · cases h
      · cases hparams : parameters params with
        | error e => simp [hparams, Except.map] at h
        | ok ss =>
          cases htype : commandType name with
          | none => simp [hparams, htype, Except.map] at h
          | some type =>
            simp only [hparams, htype, Except.map, Except.ok.injEq, Decoded.push.injEq] at h
            obtain ⟨s,hs,rfl⟩ := (command_named name type).mp htype
            have hname := (named_type s type hs).1
            rw [← h, commandJson, hname, ← parameters_ok params ss hparams]
            exact ⟨hs,rfl⟩
  | _ => cases h

theorem decode_push (j : Json) (hr : Readable j) :
    (∃ c, decodeCommand j = .ok (.push c)) ↔ IsCommand j := by
  obtain ⟨d,hd⟩ := (decode_readable j).mpr hr
  constructor
  · rintro ⟨c,hc⟩
    obtain ⟨htype,rfl⟩ := decode_pushed j c hc
    exact ⟨c.type,commandName c.type,c.parameter.map Json.string,htype,rfl⟩
  · rintro ⟨type,name,params,htype,rfl⟩
    have hname : name ≠ "END".toList := by
      rintro rfl
      cases htype
    have hend : (Json.string name).equalsText "END".toList = false := decide_eq_false hname
    rw [decode_array, hend, command_type, htype] at hd ⊢
    cases hparams : parameters params with
    | error e =>
      rw [hparams] at hd
      cases hd
    | ok ss => exact ⟨_,rfl⟩

theorem no_fault (js : List Json) : firstFault js = none ↔ ∀ j ∈ js, Readable j := by
  induction js with
  | nil => simp [firstFault]
  | cons j js ih =>
    rw [List.forall_mem_cons, ← ih, ← decode_readable, firstFault]
    cases decodeCommand j <;> simp

theorem has_end (js : List Json) : hasEnd js = true ↔ ∃ j ∈ js, IsEnd j := by
  induction js with
  | nil => simp [hasEnd]
  | cons j js ih =>
    rw [List.exists_mem_cons_iff, ← ih, ← decode_end, hasEnd]
    split
    · rename_i h
      simp [h]
    · rename_i h
      exact ⟨Or.inr,fun h' => h'.resolve_left h⟩

theorem reads_cons (j : Json) (js : List Json) :
    ReadsCommand (j::js) ↔ Readable j ∧ (IsCommand j ∨ ReadsCommand js) := by
  constructor
  · rintro ⟨front,i,back,heq,hfront,hi,hcommand⟩
    cases front with
    | nil =>
      cases heq
      exact ⟨hi,Or.inl hcommand⟩
    | cons k front =>
      cases heq
      obtain ⟨hk,hfront⟩ := List.forall_mem_cons.mp hfront
      exact ⟨hk,Or.inr ⟨front,i,back,rfl,hfront,hi,hcommand⟩⟩
  · rintro ⟨hj,hcommand | ⟨front,i,back,rfl,hfront,hi,hcommand⟩⟩
    · exact ⟨[],j,js,rfl,by simp,hj,hcommand⟩
    · exact ⟨j::front,i,back,rfl,List.forall_mem_cons.mpr ⟨hj,hfront⟩,hi,hcommand⟩

theorem queued_none (js : List Json) : queuedFrom js = [] ↔ ¬ ReadsCommand js := by
  induction js with
  | nil => simp [queuedFrom, ReadsCommand]
  | cons j js ih =>
    rw [reads_cons, ← decode_readable, queuedFrom]
    cases hd : decodeCommand j with
    | error e => simp
    | ok d =>
      have hpush := decode_push j ((decode_readable j).mp ⟨d,hd⟩)
      rw [hd] at hpush
      cases d <;> simp [← hpush, ih]

/-- The commands that are pushed are the known commands of the list, in order
and with all their parameters. -/
theorem queued_filter (js : List Json) (hr : ∀ j ∈ js, Readable j) :
    (queuedFrom js).map commandJson = js.filter (fun j => IsCommand j) := by
  induction js with
  | nil => rfl
  | cons j js ih =>
    obtain ⟨hj,hjs⟩ := List.forall_mem_cons.mp hr
    obtain ⟨d,hd⟩ := (decode_readable j).mpr hj
    have hpush := decode_push j hj
    rw [hd] at hpush
    rw [queuedFrom, hd, List.filter_cons]
    cases d with
    | push c =>
      have hcommand : IsCommand j := hpush.mp ⟨c,rfl⟩
      have hjson := (decode_pushed j c hd).2
      rw [if_pos (decide_eq_true hcommand), List.map_cons, ih hjs, ← hjson]
    | finish =>
      have hother : ¬ IsCommand j := fun h => by simpa using hpush.mpr h
      simp [hother, ih hjs]
    | ignore =>
      have hother : ¬ IsCommand j := fun h => by simpa using hpush.mpr h
      simp [hother, ih hjs]

theorem none_queued (js : List Json) (hr : ∀ j ∈ js, Readable j) :
    queuedFrom js = [] ↔ ∀ j ∈ js, ¬ IsCommand j := by
  rw [← List.map_eq_nil_iff, queued_filter js hr, List.filter_eq_nil_iff]
  simp

theorem hget_json (c : Command) (params : List Str) :
    commandJson c = .array (.string "HGET".toList::params.map Json.string) ↔
      c = { type := .HGET, parameter := params } := by
  constructor
  · intro h
    cases c with
    | mk type parameter =>
      simp only [commandJson, Json.array.injEq, List.cons.injEq, Json.string.injEq] at h
      have htype : type = .HGET := by
        cases type with
        | HGET => rfl
        | _ => exact absurd h.1 (by decide)
      have hparams : parameter = params :=
        List.map_injective_iff.mpr (fun s t hst => Json.string.inj hst) h.2
      rw [htype, hparams]
  · rintro rfl
    rfl

theorem hget_queued (js : List Json) (hr : ∀ j ∈ js, Readable j) (i : ℕ) (params : List Str) :
    HgetAt js i params ↔
      (queuedFrom js)[i]? = some { type := .HGET, parameter := params } := by
  rw [HgetAt, ← queued_filter js hr, List.getElem?_map]
  cases (queuedFrom js)[i]? with
  | none => simp
  | some c => simp only [Option.map_some, Option.some.injEq, hget_json]

theorem queued_hget (js : List Json) (hr : ∀ j ∈ js, Readable j) (i : ℕ) (c : Command)
    (hc : (queuedFrom js)[i]? = some c) (hget : c.type = .HGET) : HgetAt js i c.parameter := by
  rw [hget_queued js hr, hc, ← hget]

theorem goes_on (js : List Json) :
    GoesOn js ↔ firstFault js = none ∧ hasEnd js = false := by
  rw [GoesOn, no_fault, ← Bool.not_eq_true, has_end]
  simp

theorem parameters_fault (js : List Json) (e : Fault) (h : parameters js = .error e) :
    e = .typeError := by
  induction js with
  | nil => cases h
  | cons j js ih =>
    rw [parameters] at h
    cases j with
    | string s =>
      cases hparams : parameters js with
      | error e' =>
        rw [hparams] at h
        cases h
        exact ih hparams
      | ok ss =>
        rw [hparams] at h
        cases h
    | _ =>
      cases h
      rfl

theorem decode_fault (j : Json) (e : Fault) (h : decodeCommand j = .error e) : e = .typeError := by
  cases j with
  | array js =>
    cases js with
    | nil => cases h
    | cons name params =>
      rw [decode_array] at h
      split at h
      · cases h
      · cases hparams : parameters params with
        | error e' =>
          rw [hparams] at h
          cases h
          exact parameters_fault params e hparams
        | ok ss =>
          rw [hparams] at h
          cases h
  | null => cases h
  | _ =>
    cases h
    rfl

theorem first_fault (js : List Json) (e : Fault) (h : firstFault js = some e) :
    e = .typeError := by
  induction js with
  | nil => cases h
  | cons j js ih =>
    rw [firstFault] at h
    cases hd : decodeCommand j with
    | error e' =>
      rw [hd] at h
      cases h
      exact decode_fault j e hd
    | ok d =>
      rw [hd] at h
      exact ih h

end Grandma.Shapes
