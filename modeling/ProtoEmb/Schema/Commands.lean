import ProtoEmb.Lib.Result
import ProtoEmb.Schema.Layout

/-!
# Messages by command id

The part of `process_schema` in `generate.py` that sorts the messages out for the templates: the
semantic class, the messages that are read and the messages that are written, each list by command
id, and the messages whose response the typed facade decodes.

READ and WRITE ids are two spaces, so one id may be read and written. What
`validate_schema` excludes is stated pairwise: a pair of messages of one kind with one id
(`idErrors_iff`). Without such a pair every switch over command ids has one case for an
id, and it is found.
-/

namespace ProtoEmb.Schema

open ProtoEmb.Lib

variable {rnd : Rat → Rat}

/-- `_semantic`. -/
inductive Semantic where
  | periodic
  | async
  | query
  | command
  | unknown
  deriving DecidableEq

namespace Message

/-- `_is_async`. -/
def isAsync (m : Message) : Bool :=
  m.decl.commandId.isNone && m.decl.response.isSome && !m.isPeriodic

def semantic (m : Message) : Semantic :=
  if m.isPeriodic then .periodic
  else if m.isAsync then .async
  else if m.decl.commandId.isSome then if m.decl.response.isSome then .query else .command
  else .unknown

/-- `_payload_name`. -/
def payloadName (m : Message) : Option String :=
  if m.requestName.isSome then m.requestName else m.decl.response

/-- The message is the case of a command byte. -/
def hasId (m : Message) (command : UInt8) : Bool := m.decl.commandId = some ↑command.toNat

/-- Two messages have one command id. -/
def SharesId (a b : Message) : Prop :=
  a.decl.commandId.isSome = true ∧ a.decl.commandId = b.decl.commandId

instance (a b : Message) : Decidable (SharesId a b) := inferInstanceAs (Decidable (_ ∧ _))

end Message

/-- A message with an id is a query if it has a response and no period. -/
theorem Message.semantic_query_iff {m : Message} (hid : m.decl.commandId.isSome = true) :
    m.semantic = .query ↔ m.isPeriodic = false ∧ m.decl.response.isSome = true := by
  have hasync : m.isAsync = false := by
    rw [Message.isAsync, Option.isNone_eq_false_iff.mpr hid]
    rfl
  unfold Message.semantic
  cases m.isPeriodic with
  | true => simp
  | false =>
    cases hr : m.decl.response.isSome with
    | true => simp [hasync, hid]
    | false => simp [hasync, hid]

theorem processSchema_messages {schema : SchemaDecl} {data : Data}
    (hp : processSchema rnd schema = .ok data) :
    data.messages = schema.messages.map fun m => processMessage m.1 m.2 := by
  obtain ⟨_, h⟩ := processSchema_ok hp
  exact h.messages

/-- A message with an id is sent in a READ or in a WRITE frame. -/
theorem processMessage_frame {name : String} {decl : MessageDecl}
    (hid : decl.commandId.isSome = true) :
    (processMessage name decl).commandFrame = some .read ∨
      (processMessage name decl).commandFrame = some .write := by
  have hsome : ¬ decl.commandId.isNone = true := by
    rw [Option.isNone_eq_false_iff.mpr hid]
    exact Bool.false_ne_true
  unfold processMessage
  simp only [if_neg hsome]
  split_ifs
  all_goals simp

/-! ## The lists of the templates -/

/-- `sort(key=lambda m: m["_command_id"])`. -/
def sortById (ms : List Message) : List Message :=
  ms.insertionSort fun a b => a.decl.commandId.getD 0 ≤ b.decl.commandId.getD 0

/-- `runtime_read_messages`. -/
def Data.runtimeReadMessages (data : Data) : List Message :=
  sortById (data.messages.filter fun m => m.commandFrame = some .read)

/-- `runtime_write_messages`. -/
def Data.runtimeWriteMessages (data : Data) : List Message :=
  sortById (data.messages.filter fun m => m.commandFrame = some .write)

/-- The messages with an arm in `decode_data`. -/
def Data.dataMessages (data : Data) : List Message :=
  data.messages.filter fun m => m.decl.response.isSome && m.decl.commandId.isSome

/-! ## Ids used twice -/

/-- The error of an id that is used twice. -/
def SchemaError.isIdError : SchemaError → Bool
  | .duplicateReadCommand .. => true
  | .duplicateWriteCommand .. => true
  | .duplicateDataCommand .. => true
  | _ => false

/-- Two messages that `validate_schema` takes for one: both are read, both are written, or
both return a payload. -/
def Message.Clashes (a b : Message) : Prop :=
  a.SharesId b ∧
    ((a.commandFrame = some .read ∧ b.commandFrame = some .read) ∨
      (a.commandFrame = some .write ∧ b.commandFrame = some .write) ∨
      (a.decl.response.isSome = true ∧ b.decl.response.isSome = true))

instance (a b : Message) : Decidable (a.Clashes b) := inferInstanceAs (Decidable (_ ∧ _))

/-- An id is new after an entry if it was new before and is not the entry's. -/
theorem lookup_entry_eq_none {id x : Int} {name : String} {seen : List (Int × String)} :
    List.lookup x ((id, name) :: seen) = none ↔ x ≠ id ∧ seen.lookup x = none := by
  rw [List.lookup_cons]
  by_cases h : x = id
  · subst h
    simp
  · rw [beq_false_of_ne h]
    exact ⟨fun hnone => ⟨h, hnone⟩, fun hnew => hnew.2⟩

/-- The map of ids seen so far finds every id used twice, and no other. -/
theorem duplicateIds_eq_nil {error : String → String → Int → SchemaError} :
    ∀ {ms : List Message} {seen : List (Int × String)},
      duplicateIds error seen ms = [] ↔
        ms.Pairwise (fun a b => ¬ a.SharesId b) ∧
          ∀ m ∈ ms, ∀ id, m.decl.commandId = some id → seen.lookup id = none := by
  intro ms
  induction ms with
  | nil => intro seen; simp [duplicateIds]
  | cons m ms ih =>
    intro seen
    rw [duplicateIds, List.pairwise_cons, List.forall_mem_cons]
    cases hid : m.decl.commandId with
    | none =>
      rw [ih]
      simp [Message.SharesId, hid]
    | some id =>
      cases hseen : seen.lookup id with
      | some other =>
        simp only [hseen, reduceCtorEq, false_iff]
        rintro ⟨-, hfirst, -⟩
        rw [hfirst id rfl] at hseen
        cases hseen
      | none =>
        simp only [ih, Option.some.injEq, forall_eq', hseen, true_and, lookup_entry_eq_none]
        constructor
        · rintro ⟨hpair, hall⟩
          refine ⟨⟨?_, hpair⟩, fun b hb x hx => (hall b hb x hx).2⟩
          rintro b hb ⟨-, hsame⟩
          exact (hall b hb id (hsame ▸ hid)).1 rfl
        · rintro ⟨⟨hfirst, hpair⟩, hall⟩
          refine ⟨hpair, fun b hb x hx => ⟨?_, hall b hb x hx⟩⟩
          rintro rfl
          exact hfirst b hb ⟨by rw [hid]; rfl, hid.trans hx.symm⟩

theorem mem_duplicateIds {error : String → String → Int → SchemaError} {e : SchemaError} :
    ∀ {ms : List Message} {seen : List (Int × String)},
      e ∈ duplicateIds error seen ms → ∃ name other id, e = error name other id := by
  intro ms
  induction ms with
  | nil => intro seen h; cases h
  | cons m ms ih =>
    intro seen h
    rw [duplicateIds] at h
    split at h
    · exact ih h
    · next id _ =>
      split at h
      · next other _ =>
        rcases List.mem_cons.mp h with rfl | h
        · exact ⟨m.name, other, id, rfl⟩
        · exact ih h
      · exact ih h

/-! ## Id errors of a schema -/

theorem mem_errorIf {c : Prop} [Decidable c] {e e' : SchemaError} :
    e ∈ errorIf c e' ↔ c ∧ e = e' := by
  unfold errorIf
  split <;> simp_all

section OtherErrors

variable {e : SchemaError}

theorem validateUnion_isIdError {u : Union} (h : e ∈ validateUnion u) : e.isIdError = false := by
  simp only [validateUnion, List.mem_append, List.mem_map, List.mem_flatMap, mem_errorIf] at h
  rcases h with (⟨-, rfl⟩ | ⟨-, -, rfl⟩) | ⟨v, -, h⟩
  · rfl
  · rfl
  · unfold validateVariant at h
    split_ifs at h <;> simp_all [SchemaError.isIdError, mem_errorIf]

theorem validateTypeRange_isIdError {struct : String} {f : Field}
    (h : e ∈ validateTypeRange struct f) : e.isIdError = false := by
  unfold validateTypeRange at h
  split at h
  · cases h
  · rcases List.mem_append.mp h with h | h
    all_goals
      split at h
      · rw [(mem_errorIf.mp h).2]; rfl
      · cases h

theorem validateField_isIdError {struct : String} {isPacked : Bool} {f : Field}
    (h : e ∈ validateField rnd struct isPacked f) : e.isIdError = false := by
  simp only [validateField, List.mem_append, mem_errorIf] at h
  rcases h with (((h | h) | ⟨-, rfl⟩) | h) | h
  · exact validateTypeRange_isIdError h
  · split at h
    · simp only [List.mem_append, mem_errorIf] at h
      rcases h with (⟨-, rfl⟩ | ⟨-, rfl⟩) | ⟨-, rfl⟩
      all_goals rfl
    · cases h
  · rfl
  · unfold validateScale at h
    split at h
    · rw [(mem_errorIf.mp h).2]; rfl
    · cases h
  · unfold validateRangeBits at h
    split at h
    · rw [(mem_errorIf.mp h).2]; rfl
    · cases h

theorem validateStruct_isIdError {s : Struct} (h : e ∈ validateStruct rnd s) :
    e.isIdError = false := by
  simp only [validateStruct, List.mem_append, List.mem_map, List.mem_flatMap] at h
  rcases h with ⟨-, -, rfl⟩ | ⟨f, -, h⟩
  · rfl
  · exact validateField_isIdError h

theorem validateMessage_isIdError {structs nodes : List String} {m : Message}
    (h : e ∈ validateMessage structs nodes m) : e.isIdError = false := by
  simp only [validateMessage, List.mem_append, mem_errorIf] at h
  rcases h with ((((((h | ⟨-, rfl⟩) | ⟨-, rfl⟩) | h) | h) | h) | h) | h
  case inl.inl.inl.inl.inl.inl.inl =>
    split at h
    · split at h
      · simp_all [SchemaError.isIdError]
      · rw [(mem_errorIf.mp h).2]; rfl
    · simp_all [SchemaError.isIdError]
  case inl.inl.inl.inl.inl.inl.inr => rfl
  case inl.inl.inl.inl.inl.inr => rfl
  all_goals
    split at h
    · rw [(mem_errorIf.mp h).2]; rfl
    · cases h

end OtherErrors

/-- The check of one kind of message reports something if two messages of that kind have
one id. -/
theorem duplicateIds_filter_ne_nil {error : String → String → Int → SchemaError}
    {kind : Message → Bool} {ms : List Message} :
    duplicateIds error [] (ms.filter kind) ≠ [] ↔
      ∃ a b, List.Sublist [a, b] ms ∧ kind a = true ∧ kind b = true ∧ a.SharesId b := by
  rw [ne_eq, duplicateIds_eq_nil, List.pairwise_filter, List.pairwise_iff_forall_sublist]
  simp only [List.lookup_nil, implies_true, and_true, not_forall, not_not, exists_prop]

/-- **The id errors of `validate_schema`** are those of two READ messages, two WRITE
messages or two messages with a response that have one id. -/
theorem idErrors_iff {data : Data} :
    (∃ e ∈ validateSchema rnd data, e.isIdError = true) ↔
      ∃ a b, List.Sublist [a, b] data.messages ∧ a.Clashes b := by
  have hread := @duplicateIds_filter_ne_nil .duplicateReadCommand
    (fun m => m.commandFrame = some .read) data.messages
  have hwrite := @duplicateIds_filter_ne_nil .duplicateWriteCommand
    (fun m => m.commandFrame = some .write) data.messages
  have hdata := @duplicateIds_filter_ne_nil .duplicateDataCommand
    (fun m => m.decl.response ≠ none) data.messages
  constructor
  · rintro ⟨e, he, hid⟩
    simp only [validateSchema, List.mem_append, List.mem_flatMap] at he
    -- the other checks report no error of this kind
    rcases he with (((((⟨u, -, he⟩ | ⟨t, -, he⟩) | ⟨s, -, he⟩) | ⟨m, -, he⟩) | he) | he) | he
    · rw [validateUnion_isIdError he] at hid; cases hid
    · rw [(mem_errorIf.mp he).2] at hid; cases hid
    · rw [validateStruct_isIdError he] at hid; cases hid
    · rw [validateMessage_isIdError he] at hid; cases hid
    · obtain ⟨a, b, hsub, ha, hb, hsame⟩ := hread.mp (List.ne_nil_of_mem he)
      exact ⟨a, b, hsub, hsame, Or.inl ⟨by simpa using ha, by simpa using hb⟩⟩
    · obtain ⟨a, b, hsub, ha, hb, hsame⟩ := hwrite.mp (List.ne_nil_of_mem he)
      exact ⟨a, b, hsub, hsame, Or.inr (Or.inl ⟨by simpa using ha, by simpa using hb⟩)⟩
    · obtain ⟨a, b, hsub, ha, hb, hsame⟩ := hdata.mp (List.ne_nil_of_mem he)
      refine ⟨a, b, hsub, hsame, Or.inr (Or.inr ⟨?_, ?_⟩)⟩
      · exact Option.isSome_iff_ne_none.mpr (by simpa using ha)
      · exact Option.isSome_iff_ne_none.mpr (by simpa using hb)
  · -- each kind of pair makes the check of its kind report something
    rintro ⟨a, b, hsub, hsame, ⟨ha, hb⟩ | ⟨ha, hb⟩ | ⟨ha, hb⟩⟩
    · have hne := hread.mpr ⟨a, b, hsub, by simpa using ha, by simpa using hb, hsame⟩
      obtain ⟨e, he⟩ := List.exists_mem_of_ne_nil _ hne
      obtain ⟨name, other, id, rfl⟩ := mem_duplicateIds he
      exact ⟨_, by simp only [validateSchema, List.mem_append]; tauto, rfl⟩
    · have hne := hwrite.mpr ⟨a, b, hsub, by simpa using ha, by simpa using hb, hsame⟩
      obtain ⟨e, he⟩ := List.exists_mem_of_ne_nil _ hne
      obtain ⟨name, other, id, rfl⟩ := mem_duplicateIds he
      exact ⟨_, by simp only [validateSchema, List.mem_append]; tauto, rfl⟩
    · have hne := hdata.mpr ⟨a, b, hsub,
        by simpa using Option.isSome_iff_ne_none.mp ha,
        by simpa using Option.isSome_iff_ne_none.mp hb, hsame⟩
      obtain ⟨e, he⟩ := List.exists_mem_of_ne_nil _ hne
      obtain ⟨name, other, id, rfl⟩ := mem_duplicateIds he
      exact ⟨_, by simp only [validateSchema, List.mem_append]; tauto, rfl⟩

/-! ## One case for an id -/

/-- No two messages of the list have one id. -/
def UniqueIds (ms : List Message) : Prop := ms.Pairwise fun a b => ¬ a.SharesId b

theorem Message.hasId_iff {m : Message} {c : UInt8} :
    m.hasId c = true ↔ m.decl.commandId = some (c.toNat : Int) := decide_eq_true_iff

theorem UniqueIds.sort {ms : List Message} (h : UniqueIds ms) : UniqueIds (sortById ms) := by
  refine (List.Perm.pairwise_iff ?_ (List.perm_insertionSort _ _)).mpr h
  rintro a b hab ⟨hsome, hsame⟩
  exact hab ⟨hsame ▸ hsome, hsame.symm⟩

/-- A switch over such messages has at most one case for a command byte. -/
theorem UniqueIds.case_le_one {ms : List Message} (h : UniqueIds ms) (c : UInt8) :
    (ms.filter fun m => m.hasId c).length ≤ 1 := by
  induction ms with
  | nil => exact Nat.zero_le 1
  | cons m ms ih =>
    obtain ⟨hfirst, hrest⟩ := List.pairwise_cons.mp h
    by_cases hm : m.hasId c = true
    · have hnone : (ms.filter fun m => m.hasId c) = [] := by
        rw [List.filter_eq_nil_iff]
        intro b hb hbid
        rw [Message.hasId_iff] at hm hbid
        exact hfirst b hb ⟨by rw [hm]; rfl, hm.trans hbid.symm⟩
      rw [List.filter_cons, if_pos hm, hnone]
      exact Nat.le_refl 1
    · rw [List.filter_cons, if_neg hm]
      exact ih hrest

/-- The case of a command byte is the message with that id. -/
theorem UniqueIds.find_eq {ms : List Message} (h : UniqueIds ms) {m : Message} (hm : m ∈ ms)
    {c : UInt8} (hid : m.hasId c = true) : ms.find? (fun m => m.hasId c) = some m := by
  have hle := h.case_le_one c
  have hmem : m ∈ ms.filter fun m => m.hasId c := List.mem_filter.mpr ⟨hm, hid⟩
  rw [← List.head?_filter]
  cases hcases : ms.filter fun m => m.hasId c with
  | nil => rw [hcases] at hmem; cases hmem
  | cons x xs =>
    rw [hcases] at hle hmem
    have hxs : xs = [] := List.eq_nil_of_length_eq_zero (by simpa using hle)
    subst hxs
    rw [List.mem_singleton.mp hmem]
    rfl

/-- The lists of an accepted schema. -/
theorem uniqueIds_of_accepted {data : Data} (h : validateSchema rnd data = []) :
    UniqueIds data.runtimeReadMessages ∧ UniqueIds data.runtimeWriteMessages ∧
      UniqueIds data.dataMessages := by
  simp only [validateSchema, List.append_eq_nil_iff] at h
  obtain ⟨⟨⟨-, hread⟩, hwrite⟩, hdata⟩ := h
  have hreads : UniqueIds _ := (duplicateIds_eq_nil.mp hread).1
  have hwrites : UniqueIds _ := (duplicateIds_eq_nil.mp hwrite).1
  refine ⟨hreads.sort, hwrites.sort, ?_⟩
  -- the messages with an arm are those with a response, less the notifications
  have hsub : data.dataMessages = (data.messages.filter fun m => m.decl.response ≠ none).filter
      fun m => m.decl.commandId.isSome := by
    rw [Data.dataMessages, List.filter_filter]
    congr 1
    funext m
    cases m.decl.response <;> simp
  rw [hsub]
  exact (duplicateIds_eq_nil.mp hdata).1.filter _

end ProtoEmb.Schema
