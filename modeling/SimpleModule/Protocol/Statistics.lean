import SimpleModule.Protocol.Engine

/-!
# Statistics

`stat` shows how often protocols have been packed and unpacked, in two tables that scripts may
look at.  The counters belong to the protocol objects, and the totals to all of them.  An id
gets a new object with each successful load, so the entry of an id counts from the last load
on, while the total goes on.  Closures that failed loads have left are counted in the total
only.  This is so in every state of an engine, also if functions reload the protocol of the
message that has called them.
-/

namespace SimpleModule

open Octets Exits Runs

namespace Engine

open NetProtocol ProtoManager

/-! ## The tables -/

/-- A table of `stat`: the total under its name, and the counter of each object under its id. -/
def statTable (title : Bytes) (counters : Counters) (protos : List NetProtocol) : LuaValue :=
  .table (protos.foldl (fun fields proto =>
      LuaValue.setField fields (.number proto.id) (.number (counters.count proto.self)))
    (LuaValue.setField [] (.string title) (.number counters.total)))

def stat (engine : Engine) : LuaValue × LuaValue :=
  (statTable (ofString "total_pack_count") engine.packs engine.world.protos,
    statTable (ofString "total_unpack_count") engine.unpacks engine.world.protos)

section Tables

variable {title : Bytes} {counters : Counters} {protos : List NetProtocol}

theorem field_statTable_append (last : NetProtocol) (key : LuaKey) :
    (statTable title counters (protos ++ [last])).field key =
      if key = .number last.id then .number (counters.count last.self)
      else (statTable title counters protos).field key := by
  rw [statTable, List.foldl_append, List.foldl_cons, List.foldl_nil,
    LuaValue.field_setField]
  rfl

theorem field_statTable_title :
    (statTable title counters protos).field (.string title) = .number counters.total := by
  induction protos using List.reverseRecOn with
  | nil => simp [statTable, LuaValue.setField, LuaValue.field]
  | append_singleton protos last ih => rw [field_statTable_append, if_neg (by simp), ih]

/-- The entry of an id is the counter of its object. -/
theorem field_statTable_id {id : ℕ} {proto : NetProtocol}
    (numbered : ∀ {place : ℕ} {other : NetProtocol}, protos[place]? = some other →
      other.id = place)
    (found : protos[id]? = some proto) :
    (statTable title counters protos).field (.number id) =
      .number (counters.count proto.self) := by
  induction protos using List.reverseRecOn with
  | nil => simp at found
  | append_singleton protos last ih =>
      have lastId : last.id = protos.length := numbered List.getElem?_concat_length
      rw [field_statTable_append, lastId]
      rcases Nat.lt_trichotomy id protos.length with earlier | rfl | beyond
      · rw [List.getElem?_append_left earlier] at found
        have apart : LuaKey.number (id : ℚ) ≠ .number (protos.length : ℕ) := by
          simpa using earlier.ne
        rw [if_neg apart]
        apply ih _ found
        intro place other there
        have within := (List.getElem?_eq_some_iff.mp there).1
        apply numbered
        rw [List.getElem?_append_left within, there]
      · rw [List.getElem?_concat_length] at found
        rw [if_pos rfl, Option.some.inj found]
      · rw [List.getElem?_eq_none (by simpa using beyond)] at found
        cases found

end Tables

/-! ## What the counters count -/

section Counters

variable (counters : Counters)

@[simp]
theorem count_construct (self : ℕ) : (counters.construct self).count self = 0 :=
  Function.update_self self _ _

theorem count_construct_of_ne {self other : ℕ} (apart : other ≠ self) :
    (counters.construct self).count other = counters.count other :=
  Function.update_of_ne apart _ _

@[simp]
theorem count_increment (self : ℕ) :
    (counters.increment self).count self = counters.count self + 1 :=
  Function.update_self self _ _

theorem count_increment_of_ne {self other : ℕ} (apart : other ≠ self) :
    (counters.increment self).count other = counters.count other :=
  Function.update_of_ne apart _ _

end Counters

/-- The record is of a call that the counters are for. -/
def counts (which : Counting) : Record → Bool
  | .registered _ => false
  | .counted other _ => other = which
  | .orphaned => which = .pack

/-- The number of counted calls for an id since a protocol was last registered there. -/
def sinceRegistered (which : Counting) (id : ℕ) (history : List Record) : ℕ :=
  (history.reverse.takeWhile (· ≠ .registered id)).count (.counted which id)

theorem sinceRegistered_append (which : Counting) (id : ℕ) (history : List Record)
    (record : Record) :
    sinceRegistered which id (history ++ [record]) =
      if record = .registered id then 0
      else sinceRegistered which id history + if record = .counted which id then 1 else 0 := by
  unfold sinceRegistered
  rw [List.reverse_append, List.reverse_singleton, List.singleton_append, List.takeWhile_cons]
  by_cases registered : record = .registered id
  · simp [registered]
  · simp [registered, List.count_cons]

/-- The counters agree with the history. -/
structure Tallied (which : Counting) (counters : Counters) (world : World)
    (history : List Record) : Prop where
  total : counters.total = history.countP (counts which)
  count : ∀ {id : ℕ} {proto : NetProtocol}, world.protos[id]? = some proto →
    counters.count proto.self = sinceRegistered which id history

section Tallied

variable {which : Counting} {counters : Counters} {setup : Setup} {world after : World}
  {history : List Record} {id : ℕ} {proto : NetProtocol}

/-- A new object counts from zero, and the others go on. -/
theorem Tallied.register {new : NetProtocol} (tallied : Tallied which counters world history)
    (addressed : Addressed world) (registers : Registers setup world after id new) :
    Tallied which (counters.construct world.nextSelf) after (history ++ [.registered id]) := by
  constructor
  · rw [List.countP_append]
    exact tallied.total
  · intro place proto found
    rw [sinceRegistered_append]
    rcases registers.found found with ⟨rfl, rfl⟩ | ⟨apart, old⟩
    · rw [if_pos rfl, registers.self, count_construct]
    · have elsewhere : proto.self ≠ world.nextSelf := (addressed.older old).ne
      have different : Record.registered id ≠ .registered place := by
        simpa using Ne.symm apart
      rw [if_neg different, count_construct_of_ne counters elsewhere, tallied.count old]
      simp

theorem Tallied.linger (tallied : Tallied which counters world history)
    (addressed : Addressed world) (lingers : Lingers setup world after) :
    Tallied which (counters.construct world.nextSelf) after history := by
  refine ⟨tallied.total, ?_⟩
  intro place proto found
  rw [lingers.protos] at found
  rw [count_construct_of_ne counters (addressed.older found).ne, tallied.count found]

theorem Tallied.increment (tallied : Tallied which counters world history)
    (addressed : Addressed world) (found : world.protos[id]? = some proto) :
    Tallied which (counters.increment proto.self) world
      (history ++ [.counted which proto.id]) := by
  constructor
  · rw [List.countP_append, Counters.increment, tallied.total]
    simp [counts]
  · intro place named there
    rw [sinceRegistered_append, if_neg (by simp), addressed.numbered found]
    by_cases same : place = id
    · subst same
      cases found.symm.trans there
      rw [count_increment, tallied.count found, if_pos rfl]
    · have elsewhere : named.self ≠ proto.self := by
        intro alike
        exact same (addressed.distinct there found alike)
      have different : Record.counted which id ≠ .counted which place := by
        simpa using Ne.symm same
      rw [count_increment_of_ne counters elsewhere, tallied.count there, if_neg different, add_zero]

/-- The call for an object that is not registered changes the total only. -/
theorem Tallied.orphaned {self : ℕ} (tallied : Tallied .pack counters world history)
    (elsewhere : ∀ proto ∈ world.protos, proto.self ≠ self) :
    Tallied .pack (counters.increment self) world (history ++ [.orphaned]) := by
  constructor
  · rw [List.countP_append, Counters.increment, tallied.total]
    simp [counts]
  · intro place proto found
    rw [sinceRegistered_append, if_neg (by simp), if_neg (by simp), add_zero,
      count_increment_of_ne counters (elsewhere proto (List.mem_of_getElem? found)),
      tallied.count found]

theorem Tallied.other {record : Record} (tallied : Tallied which counters world history)
    (uncounted : counts which record = false) (stays : ∀ id, record ≠ .registered id) :
    Tallied which counters world (history ++ [record]) := by
  constructor
  · rw [List.countP_append, tallied.total]
    simp [uncounted]
  · intro place proto found
    have different : record ≠ .counted which place := by
      rintro rfl
      simp [counts] at uncounted
    rw [sinceRegistered_append, if_neg (stays place), if_neg different, add_zero,
      tallied.count found]

end Tallied

/-! ## Whole runs -/

/-- All counters of an engine agree with its history. -/
structure Counted (engine : Engine) : Prop where
  placed : Placed engine
  packs : Tallied .pack engine.packs engine.world engine.history
  unpacks : Tallied .unpack engine.unpacks engine.world engine.history

section Counted

variable {setup : Setup} {script : Lua.Script} {engine next : Engine}

theorem counted_start (args : List ArgObj) (globals : List (LuaKey × LuaValue)) :
    Counted (start args globals) :=
  ⟨placed_start args globals, ⟨rfl, fun _ => rfl⟩, ⟨rfl, fun _ => rfl⟩⟩

theorem Counted.load {call : Call} {world : World} (counted : Counted engine)
    (attempted : attempt setup engine.world call = some world) :
    Counted (loaded setup call engine (call.program setup engine.world).1 world) := by
  have addressed := counted.placed.addressed
  rcases attempt_cases addressed.started attempted with
    ⟨succeeds, new, registers⟩ | ⟨fails, lingers⟩
  · have history : (loaded setup call engine (call.program setup engine.world).1 world).history =
        engine.history ++ [.registered (call.target setup engine.world)] :=
      congrArg (engine.history ++ ·) (if_pos succeeds)
    refine ⟨counted.placed.load attempted, ?_, ?_⟩
    · rw [history]
      exact counted.packs.register addressed registers
    · rw [history]
      exact counted.unpacks.register addressed registers
  · have history : (loaded setup call engine (call.program setup engine.world).1 world).history =
        engine.history :=
      (congrArg (engine.history ++ ·) (if_neg fails)).trans (List.append_nil _)
    refine ⟨counted.placed.load attempted, ?_, ?_⟩
    · rw [history]
      exact counted.packs.linger addressed lingers
    · rw [history]
      exact counted.unpacks.linger addressed lingers

theorem Counted.pack {self : ℕ} {proto : NetProtocol} (counted : Counted engine)
    (found : engine.object self = some proto) (sends : List Send) :
    Counted { countPack proto engine with sends := sends } := by
  have placed := counted.placed
  refine ⟨⟨placed.addressed, placed.older, placed.apart⟩, ?_, ?_⟩
  · rcases object_cases found with ⟨id, there⟩ | orphan
    · have known : (engine.registered proto.self).isSome = true := by
        rw [registered_of_found placed.addressed there]
        rfl
      rw [countPack, if_pos known]
      exact counted.packs.increment placed.addressed there
    · have unknown : ¬(engine.registered proto.self).isSome = true := by
        rw [Option.not_isSome_iff_eq_none]
        exact placed.registered_orphan orphan
      rw [countPack, if_neg unknown]
      exact counted.packs.orphaned (placed.apart proto orphan)
  · apply counted.unpacks.other
    · split_ifs
      · rfl
      · rfl
    · intro id
      split_ifs
      · nofun
      · nofun

theorem Counted.performed {action : Action} (counted : Counted engine)
    (stepped : performed setup engine action = some next) : Counted next := by
  cases action with
  | load call =>
      rw [performed_load, Option.map_eq_some_iff] at stepped
      rcases stepped with ⟨world, attempted, rfl⟩
      exact counted.load attempted
  | invoke self arguments =>
      rw [performed_invoke, Option.bind_eq_some_iff] at stepped
      rcases stepped with ⟨proto, found, packed⟩
      rcases Option.map_eq_some_iff.mp packed with ⟨sender, -, rfl⟩
      exact counted.pack found sender.sends
  | assign globals =>
      have placed := counted.placed.performed stepped
      cases stepped
      exact ⟨placed, ⟨counted.packs.total, counted.packs.count⟩,
        ⟨counted.unpacks.total, counted.unpacks.count⟩⟩

theorem Counted.unpack {id : ℕ} {proto : NetProtocol} (counted : Counted engine)
    (found : engine.world.protos[id]? = some proto) : Counted (countUnpack proto engine) := by
  have placed := counted.placed
  exact ⟨⟨placed.addressed, placed.older, placed.apart⟩, counted.packs.other rfl (by simp),
    counted.unpacks.increment placed.addressed found⟩

theorem counted_of_run {args : List ArgObj} {globals : List (LuaKey × LuaValue)}
    {events : List Event}
    (reached : run (step setup script) (start args globals) events = some engine) :
    Counted engine := by
  have states : StatesMeet (step setup script) Counted (start args globals) events := by
    refine statesMeet_of_stepsMeet ?_ (counted_start args globals) (stepsMeet_of_run reached)
    intro state event next counted _ stepped
    apply step_invariant _ _ _ counted stepped
    · intro engine next action counted performed
      exact counted.performed performed
    · intro engine id proto counted found
      exact counted.unpack found
    · rintro engine lua ⟨⟨addressed, older, apart⟩, packs, unpacks⟩
      exact ⟨⟨addressed, older, apart⟩, packs, unpacks⟩
  exact states.last reached

end Counted

/--
The load of a protocol with an unknown type fails and leaves a closure, which sends under the id
of the next protocol.  This one is reloaded between two calls.
-/
def sharesId : List Event :=
  [.act (.load (.add (oneArg "pto/s_a.pto" "nosuch"))),
    .act (.load (.add (noArgs "pto/s_b.pto"))), .act (.invoke 1 [.number 5]),
    .act (.invoke 2 [.number 6]), .act (.load (.update (.number 1) (noArgs "pto/s_b.pto"))),
    .act (.invoke 1 [.number 7]), .act (.invoke 3 [.number 8])]

end Engine

end SimpleModule
