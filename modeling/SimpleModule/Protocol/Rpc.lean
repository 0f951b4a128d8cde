import SimpleModule.Protocol.Multicast
import SimpleModule.Protocol.Reload

/-!
# Remote calls

A script calls the functions of the other side through the closures in its caller table.
Each call marshals a message and gives it to the send hook; whatever transports it hands it
to `unpack_data` on the other side, which calls the function bound to the id of the message.

A server and any number of clients have loaded the same protocols, from files that do not name
the type `array`.  Their calls and the deliveries of their messages happen in any order: a
message may arrive late, more than once or never.  Each delivery calls one function, once: the
one that the receiver has for the name that was called, with the arguments that were given.
Nothing else is ever called, and every `unpack_data` returns.
-/

namespace SimpleModule

open Octets Exits Runs ArgType

/-! ## What a call sends -/

/-- The message in a call of the send hook, without the destinations behind it. -/
def Send.payload (send : Send) : Bytes :=
  send.data.take (if send.ismulticast = 1 then send.mcpayloadlen else send.dataLen).toNat

theorem payload_unicast (message : Bytes) (ext : ℕ) :
    Send.payload ⟨message.take (message.length : ℤ).toNat, message.length, ext, 0, 0⟩ =
      message := by
  simp [Send.payload]

theorem payload_multicast (message dests : Bytes) (dataLen : ℤ) (ext : ℕ) :
    Send.payload ⟨message.take (message.length : ℤ).toNat ++ dests, dataLen, ext, 1,
      message.length⟩ = message := by
  simp [Send.payload]

namespace NetProtocol

/-- A program that returns or raises an error, and sends the message once or not at all. -/
structure Posts {α : Type} (message : Bytes) (program : Program Sender α) (sender : Sender) :
    Prop where
  survives : (survived (program sender)).isSome = true
  posted : (program sender).2.sends = sender.sends ∨
    ∃ send, (program sender).2.sends = sender.sends ++ [send] ∧ send.payload = message

section Posts

variable {numerals : Numerals} {proto : NetProtocol} {types : List ArgType}
  {values : List LuaValue} {message : Bytes}

theorem posts_pure {sender : Sender} : Posts message (pure ()) sender := ⟨rfl, .inl rfl⟩

/-- `pack` chooses a branch for its destination and puts the stack back. -/
theorem Posts.ofBranch {branch : Program Sender Unit} {sender : Sender}
    (posts : Posts message branch sender) {top : ℤ}
    (chosen : proto.pack numerals sender =
      (branch >>= fun _ => Sender.onLua (Lua.settop top) >>= fun _ => pure (0 : ℤ)) sender) :
    Posts message (proto.pack numerals) sender := by
  rcases posts with ⟨survives, posted⟩
  rcases ended : branch sender with ⟨exit, after⟩
  rw [ended] at survives posted
  rw [Program.bind_apply, ended] at chosen
  cases exit with
  | ret result =>
      constructor
      · rw [chosen]
        rfl
      · rw [chosen]
        exact posted
  | raise =>
      constructor
      · rw [chosen]
        rfl
      · rw [chosen]
        exact posted
  | abort => cases survives
  | fault => cases survives

/-- The arguments of a call are above its destination. -/
theorem argumentsFrom_call (values : List LuaValue) (dest : LuaValue) (out : Bytes)
    (calls : List (LuaValue × List LuaValue)) :
    ArgumentsFrom ⟨values.reverse ++ [dest], out, calls⟩ 2 values := by
  intro i inside
  have slot : LuaState.slot ⟨values.reverse ++ [dest], out, calls⟩ (2 + i : ℕ) =
      (values.length - 1 - i : ℕ) := by
    simp only [LuaState.slot, List.length_append, List.length_reverse, List.length_singleton]
    rw [if_pos (by omega)]
    omega
  have within : values.length - 1 - i < values.reverse.length := by
    rw [List.length_reverse]
    omega
  rw [LuaState.valueAt, slot, if_pos (Int.natCast_nonneg _), Int.toNat_natCast,
    List.getD_append _ _ _ _ within, List.getD_eq_getElem _ _ within, List.getElem_reverse]
  congr 1
  omega

/-- The loop over the destinations puts the stack back, or raises an error. -/
theorem appendVfds_cases (numerals : Numerals) (usedLen : ℤ) (count i c : ℕ) (written : Bytes)
    {kept : List LuaValue} {first : LuaValue} (isTable : first.isTable = true) (out : Bytes)
    (calls : List (LuaValue × List LuaValue)) :
    (∃ appended, appendVfds numerals usedLen count i c written ⟨kept ++ [first], out, calls⟩ =
        (.ret appended, ⟨kept ++ [first], out, calls⟩)) ∨
      ∃ final, appendVfds numerals usedLen count i c written ⟨kept ++ [first], out, calls⟩ =
        (.raise, final) := by
  induction count generalizing i c written with
  | zero => exact .inl ⟨(c, written), rfl⟩
  | succ count ih =>
      have read : Lua.rawget 1 ⟨.number (i + 1 : ℤ) :: (kept ++ [first]), out, calls⟩ =
          (.ret (), ⟨first.index (i + 1) :: (kept ++ [first]), out, calls⟩) := by
        have table := valueAt_one (.number (i + 1 : ℤ) :: kept) first out calls
        rw [List.cons_append] at table
        rw [Lua.rawget, Program.bind_of_ret (Lua.valueAt_apply _ _),
          Program.bind_of_ret (Lua.valueAt_apply _ _),
          Program.bind_of_ret (Lua.pop_one_apply _ _ _ _), table, LuaState.valueAt_neg_one,
          isTable]
        rfl
      rw [appendVfds, Program.bind_of_ret (Lua.push_apply _ _), Program.bind_of_ret read]
      by_cases numeric : (first.index (i + 1)).isNumber numerals = true
      · have checked : lCheckNumber numerals (-1)
            ⟨first.index (i + 1) :: (kept ++ [first]), out, calls⟩ =
            (.ret ((first.index (i + 1)).toNumber numerals),
              ⟨first.index (i + 1) :: (kept ++ [first]), out, calls⟩) := by
          simp [lCheckNumber, Program.bind_apply, numeric]
        rw [Program.bind_of_ret checked, Program.bind_of_ret (Lua.pop_one_apply _ _ _ _)]
        split_ifs
        · exact ih (i + 1) (c + 1) _
        · exact ih (i + 1) c written
        · exact ih (i + 1) c written
      · right
        simp [lCheckNumber, Program.bind_apply, numeric]

section Branches

variable (numbered : proto.id ≠ 0) (built : BuiltArgs numerals proto.args types)
  (inDomain : List.Forall₂ InDomain types values) (dest : LuaValue)
  (calls : List (LuaValue × List LuaValue)) (sends : List Send)

include numbered built inDomain

/-- The whole message is marshalled, or nothing is sent. -/
theorem marshal_call :
    proto.marshal numerals maxToNetd ⟨values.reverse ++ [dest], [], calls⟩ =
        (.ret (idBytes proto.id ++ encodeAll types values).length,
          ⟨values.reverse ++ [dest], idBytes proto.id ++ encodeAll types values, calls⟩) ∨
      ∃ gaveUp, proto.marshal numerals maxToNetd ⟨values.reverse ++ [dest], [], calls⟩ =
        (.ret (-1), gaveUp) := by
  have room : (idBytes proto.id).length ≤ maxToNetd :=
    (length_idBytes_le proto.id).trans (by decide)
  have marshals := marshals_marshal numbered room built inDomain
    (argumentsFrom_call values dest [] calls)
  simpa using marshals.written_or_refused

theorem posts_marshal {rest : ℤ → Program Sender Unit}
    (later : Posts (idBytes proto.id ++ encodeAll types values)
      (rest (idBytes proto.id ++ encodeAll types values).length)
      ⟨⟨values.reverse ++ [dest], idBytes proto.id ++ encodeAll types values, calls⟩, sends⟩) :
    Posts (idBytes proto.id ++ encodeAll types values)
      (Sender.onLua (proto.marshal numerals maxToNetd) >>= fun usedLen =>
        if usedLen > 0 then rest usedLen else pure ())
      ⟨⟨values.reverse ++ [dest], [], calls⟩, sends⟩ := by
  have positive : ((idBytes proto.id ++ encodeAll types values).length : ℤ) > 0 := by
    have nonempty : 0 < (idBytes proto.id).length := by
      unfold idBytes
      split_ifs
      · simp
      · simp
    rw [List.length_append]
    omega
  rcases marshal_call numbered built inDomain dest calls with whole | ⟨gaveUp, refused⟩
  · have body : (Sender.onLua (proto.marshal numerals maxToNetd) >>= fun usedLen =>
        if usedLen > 0 then rest usedLen else pure ())
        ⟨⟨values.reverse ++ [dest], [], calls⟩, sends⟩ =
        rest (idBytes proto.id ++ encodeAll types values).length
          ⟨⟨values.reverse ++ [dest], idBytes proto.id ++ encodeAll types values, calls⟩,
            sends⟩ := by
      rw [Program.bind_apply, Sender.onLua_apply, whole]
      simp only [if_pos positive]
    exact ⟨by rw [body]; exact later.survives, by rw [body]; exact later.posted⟩
  · have body : (Sender.onLua (proto.marshal numerals maxToNetd) >>= fun usedLen =>
        if usedLen > 0 then rest usedLen else pure ())
        ⟨⟨values.reverse ++ [dest], [], calls⟩, sends⟩ = (.ret (), ⟨gaveUp, sends⟩) := by
      rw [Program.bind_apply, Sender.onLua_apply, refused]
      rfl
    exact ⟨by rw [body]; rfl, by rw [body]; exact .inl rfl⟩

theorem posts_packUnicast (vfd : ℚ) :
    Posts (idBytes proto.id ++ encodeAll types values) (packUnicast numerals proto vfd)
      ⟨⟨values.reverse ++ [dest], [], calls⟩, sends⟩ := by
  simp only [packUnicast]
  split_ifs
  · exact posts_pure
  · apply posts_marshal numbered built inDomain
    exact ⟨rfl, .inr ⟨_, rfl, payload_unicast _ _⟩⟩

theorem posts_packMulticast (isTable : dest.isTable = true) (count : ℕ) :
    Posts (idBytes proto.id ++ encodeAll types values) (packMulticast numerals proto count)
      ⟨⟨values.reverse ++ [dest], [], calls⟩, sends⟩ := by
  unfold packMulticast
  split_ifs
  · apply posts_marshal numbered built inDomain
    generalize idBytes proto.id ++ encodeAll types values = message
    rcases appendVfds_cases numerals message.length count 0 0 [] isTable message calls with
      ⟨appended, returned⟩ | ⟨final, raised⟩
    · have looped : Sender.onLua (appendVfds numerals message.length count 0 0 [])
          ⟨⟨values.reverse ++ [dest], message, calls⟩, sends⟩ =
          (.ret appended, ⟨⟨values.reverse ++ [dest], message, calls⟩, sends⟩) := by
        rw [Sender.onLua_apply, returned]
      constructor
      · rw [Program.bind_of_ret looped]
        split_ifs
        · rfl
        · rfl
      · rw [Program.bind_of_ret looped]
        split_ifs
        · exact .inr ⟨_, rfl, payload_multicast message _ _ _⟩
        · exact .inl rfl
    · constructor
      · rw [Program.bind_apply, Sender.onLua_apply, raised]
        rfl
      · rw [Program.bind_apply, Sender.onLua_apply, raised]
        exact .inl rfl
  · exact posts_pure

/-- A call of a closure sends its message once or not at all, whatever the destination is. -/
theorem posts_pack :
    Posts (idBytes proto.id ++ encodeAll types values) (proto.pack numerals)
      ⟨⟨values.reverse ++ [dest], [], calls⟩, sends⟩ := by
  have found := valueAt_one values.reverse dest [] calls
  cases dest with
  | number vfd =>
      apply (posts_packUnicast numbered built inDomain (.number vfd) calls sends vfd).ofBranch
      simp only [pack, Program.bind_apply, Sender.onLua_apply, Lua.gettop_apply,
        Program.modify_apply, Lua.valueAt_apply, found]
      rfl
  | table fields =>
      apply (posts_packMulticast numbered built inDomain (.table fields) calls sends rfl
        (LuaValue.table fields).objlen).ofBranch
      simp only [pack, Program.bind_apply, Sender.onLua_apply, Lua.gettop_apply,
        Program.modify_apply, Lua.valueAt_apply, found]
      rfl
  | _ =>
      apply Posts.ofBranch posts_pure
      simp only [pack, Program.bind_apply, Sender.onLua_apply, Lua.gettop_apply,
        Program.modify_apply, Lua.valueAt_apply, Program.pure_apply, found]
      rfl

end Branches

end Posts

/-! ## What a message calls -/

section Unpack

variable {numerals : Numerals} {receiver : NetProtocol} {types : List ArgType}
  {values : List LuaValue}

/-- The arguments of a message are all read before the bound function is called. -/
theorem unpack_called (built : BuiltArgs numerals receiver.args types)
    (inDomain : List.Forall₂ InDomain types values) {handler : LuaValue}
    (bound : receiver.unpackRef = some handler) (callable : handler.isFunction = true)
    {script : Lua.Script} (raises : RaisesText script) (ext : ℤ) (state : LuaState) :
    ∃ result after, receiver.unpack numerals script (encodeAll types values)
        ((encodeAll types values).length : ℕ) ext state = (.ret result, after) ∧
      after.calls = state.calls ++ [(handler, .number ext :: restrictAll types values)] := by
  have count : receiver.args.length + 1 =
      (LuaValue.number ext :: restrictAll types values).length := by
    rw [List.length_cons, restrictAll, List.length_zipWith, ← inDomain.length_eq, built.length_eq,
      min_self]
  have onStack : (restrictAll types values).reverse ++ .number ext :: handler :: state.stack =
      (.number ext :: restrictAll types values).reverse ++ handler :: state.stack := by
    simp
  have read := unpackArgs_encodeAll built inDomain state.stack.length
    (callHandler numerals script state.stack.length (receiver.args.length + 1)) [] []
    (.number ext :: handler :: state.stack) state.out state.calls _ rfl
  rw [onStack, count, List.nil_append, List.nil_append, List.append_nil] at read
  rcases callHandler_cases numerals raises handler (.number ext :: restrictAll types values)
    (encodeAll types values).length state.stack state.out state.calls with
    ⟨result, after, returned, recorded, -⟩
  refine ⟨result, after, ?_, recorded⟩
  rw [unpack, Program.bind_of_ret (Lua.gettop_apply state), bound, ← returned]
  simp only [count]
  rw [Program.bind_of_ret (Lua.push_apply _ _),
    Program.bind_of_ret (Lua.assert_apply callable _), Program.bind_of_ret (Lua.push_apply _ _)]
  exact read

end Unpack

end NetProtocol

namespace ProtoManager

open NetProtocol

theorem dispatch_returns {numerals : Numerals} {protos : List NetProtocol} {id : ℕ}
    {receiver : NetProtocol} (registered : protos[id]? = some receiver) {script : Lua.Script}
    {before rest : Bytes} {ext result : ℤ} {state after : LuaState}
    (unpacked : receiver.unpack numerals script rest (rest.length : ℕ) ext state =
      (.ret result, after)) :
    finished (dispatch numerals script protos (before ++ rest) ((before ++ rest).length : ℕ) ext
      before.length id state) = some after := by
  have remaining : (before ++ rest).drop (before.length : ℤ).toNat = rest := by simp
  have measured : ((before ++ rest).length : ℤ) - before.length = (rest.length : ℕ) := by simp
  simp only [dispatch, registered, remaining, measured, Program.bind_apply, unpacked]
  split_ifs
  · rfl
  · rfl
  · rfl

/-- A message is read by the protocol of its id. -/
theorem unpackData_called {numerals : Numerals} {types : List ArgType} {values : List LuaValue}
    {protos : List NetProtocol} {id : ℕ} {receiver : NetProtocol}
    (registered : protos[id]? = some receiver) (positive : id ≠ 0) (bounded : id ≤ 65535)
    (built : BuiltArgs numerals receiver.args types)
    (inDomain : List.Forall₂ InDomain types values) {handler : LuaValue}
    (bound : receiver.unpackRef = some handler) (callable : handler.isFunction = true)
    {script : Lua.Script} (raises : RaisesText script) (ext : ℤ) (state : LuaState) :
    ∃ after, finished (unpackData numerals script protos (idBytes id ++ encodeAll types values)
        ((idBytes id ++ encodeAll types values).length : ℕ) ext state) = some after ∧
      after.calls = state.calls ++ [(handler, .number ext :: restrictAll types values)] := by
  rcases unpack_called built inDomain bound callable raises ext state with
    ⟨result, after, unpacked, recorded⟩
  rw [unpackData_idBytes (Nat.one_le_iff_ne_zero.mpr positive) bounded]
  exact ⟨after, dispatch_returns registered unpacked, recorded⟩

end ProtoManager

/-! ## Parties and their traffic -/

namespace Rpc

open NetProtocol ProtoManager

/-- A process that has loaded its protocols. -/
structure Party where
  setup : Setup
  script : Lua.Script
  world : World

/-- The object of the closure under a name; the object of a stale closure is not to be found. -/
def Party.object (party : Party) (name : Bytes) : Option NetProtocol :=
  (callerOf party.setup party.world (.string name)).bind fun self =>
    party.world.protos.find? (·.self = self)

/-- A call of the send hook, and the call of a closure that has led to it. -/
structure Sent where
  name : Bytes
  arguments : List LuaValue
  send : Send

/-- The delivery of a message of some party, with the value that is passed to the function. -/
structure Received (κ : Type) where
  sender : κ
  index : ℕ
  ext : ℤ

/--
The messages and the calls of script functions of each party, in order.  The code has no
records of which closures were called and which messages were delivered.
-/
structure Traffic (κ : Type) where
  sent : κ → List Sent
  received : κ → List (Received κ)
  calls : κ → List (LuaValue × List LuaValue)

/-- A script calls a closure, or a message of one party is handed to another one. -/
inductive Event (κ : Type)
  | call (caller : κ) (name : Bytes) (arguments : List LuaValue)
  | deliver (receiver sender : κ) (index : ℕ) (ext : ℤ)

/-- Nothing has been sent yet. -/
def Traffic.start (κ : Type) : Traffic κ := ⟨fun _ => [], fun _ => [], fun _ => []⟩

section System

variable {κ : Type}

/-- The messages of a call; a script goes on after an error that the call raises. -/
def Party.post (party : Party) (name : Bytes) (arguments : List LuaValue)
    (calls : List (LuaValue × List LuaValue)) : Option (List Sent) :=
  (party.object name).bind fun proto =>
    (survived (proto.pack party.setup.numerals ⟨⟨arguments.reverse, [], calls⟩, []⟩)).map
      fun sender => sender.sends.map fun send => ⟨name, arguments, send⟩

/--
The calls of script functions after a message has been handed to `unpack_data`, which has to
return: nothing catches an error that it lets through.
-/
def Party.accept (party : Party) (payload : Bytes) (ext : ℤ)
    (calls : List (LuaValue × List LuaValue)) : Option (List (LuaValue × List LuaValue)) :=
  (finished (unpackData party.setup.numerals party.script party.world.protos payload
    payload.length ext ⟨[], [], calls⟩)).map LuaState.calls

section Steps

variable [DecidableEq κ]

/-- More messages of one party. -/
def Traffic.sending (traffic : Traffic κ) (sender : κ) (posted : List Sent) : Traffic κ :=
  { traffic with sent := Function.update traffic.sent sender (traffic.sent sender ++ posted) }

/-- One more delivery to a party, and its calls afterwards. -/
def Traffic.receiving (traffic : Traffic κ) (receiver : κ) (delivery : Received κ)
    (calls : List (LuaValue × List LuaValue)) : Traffic κ :=
  { traffic with
    received := Function.update traffic.received receiver (traffic.received receiver ++ [delivery])
    calls := Function.update traffic.calls receiver calls }

@[simp]
theorem sent_sending (traffic : Traffic κ) (sender : κ) (posted : List Sent) :
    (traffic.sending sender posted).sent sender = traffic.sent sender ++ posted :=
  Function.update_self sender _ _

theorem sent_sending_of_ne (traffic : Traffic κ) {sender other : κ} (apart : other ≠ sender)
    (posted : List Sent) : (traffic.sending sender posted).sent other = traffic.sent other :=
  Function.update_of_ne apart _ _

@[simp]
theorem received_receiving (traffic : Traffic κ) (receiver : κ) (delivery : Received κ)
    (calls : List (LuaValue × List LuaValue)) :
    (traffic.receiving receiver delivery calls).received receiver =
      traffic.received receiver ++ [delivery] :=
  Function.update_self receiver _ _

@[simp]
theorem calls_receiving (traffic : Traffic κ) (receiver : κ) (delivery : Received κ)
    (calls : List (LuaValue × List LuaValue)) :
    (traffic.receiving receiver delivery calls).calls receiver = calls :=
  Function.update_self receiver _ _

theorem receiving_of_ne (traffic : Traffic κ) {receiver other : κ} (apart : other ≠ receiver)
    (delivery : Received κ) (calls : List (LuaValue × List LuaValue)) :
    (traffic.receiving receiver delivery calls).received other = traffic.received other ∧
      (traffic.receiving receiver delivery calls).calls other = traffic.calls other :=
  ⟨Function.update_of_ne apart _ _, Function.update_of_ne apart _ _⟩

/-- One event; there is no result if a party would stop. -/
def step (parties : κ → Party) (traffic : Traffic κ) : Event κ → Option (Traffic κ)
  | .call caller name arguments =>
      ((parties caller).post name arguments (traffic.calls caller)).map (traffic.sending caller)
  | .deliver receiver sender index ext =>
      (traffic.sent sender)[index]?.bind fun message =>
        ((parties receiver).accept message.send.payload ext (traffic.calls receiver)).map
          (traffic.receiving receiver ⟨sender, index, ext⟩)

end Steps

/-- A call of an object with these arguments, in the domains of its types. -/
structure Fits (numerals : Numerals) (proto : NetProtocol) (arguments : List LuaValue)
    (dest : LuaValue) (values : List LuaValue) (types : List ArgType) : Prop where
  numbered : proto.id ≠ 0
  arguments : arguments = dest :: values
  built : BuiltArgs numerals proto.args types
  inDomain : List.Forall₂ InDomain types values

/--
Calls go through closures of registered objects, not that of the id zero, with arguments in
the domains of their types.  Messages go from clients to servers or from servers to clients.
-/
def Allowed (parties : κ → Party) (traffic : Traffic κ) : Event κ → Prop
  | .call caller name arguments => ∃ proto dest values types,
      (parties caller).object name = some proto ∧
        Fits (parties caller).setup.numerals proto arguments dest values types
  | .deliver receiver sender index _ =>
      (parties sender).setup.curChar ≠ (parties receiver).setup.curChar ∧
        index < (traffic.sent sender).length

/-- What parties that have loaded the same protocols have in common. -/
structure Loaded (parties : κ → Party) : Prop where
  raises : ∀ party, RaisesText (parties party).script
  numerals : ∀ first second, (parties first).setup.numerals = (parties second).setup.numerals
  sited : ∀ party, Sited (parties party).setup (parties party).world
  few : ∀ party, (parties party).world.protos.length ≤ 65536
  twins : ∀ client server, (parties client).setup.curChar = .client →
    (parties server).setup.curChar = .server →
    Twins (parties client).world (parties server).world

/--
A delivery and the call that it has led to: the receiver has bound the function to the
protocol with the id and the name of the object that the sender has called.
-/
def Served (parties : κ → Party) (traffic : Traffic κ) (receiver : κ) (delivery : Received κ)
    (call : LuaValue × List LuaValue) : Prop :=
  ∃ message proto theirs handler dest values types,
    (traffic.sent delivery.sender)[delivery.index]? = some message ∧
    (parties delivery.sender).object message.name = some proto ∧
    Fits (parties receiver).setup.numerals proto message.arguments dest values types ∧
    (parties receiver).world.protos[proto.id]? = some theirs ∧
    theirs.packFuncName = message.name ∧ theirs.unpackRef = some handler ∧
    call = (handler, .number delivery.ext :: restrictAll types values)

/-- A message and the call that it stands for. -/
def Carries (parties : κ → Party) (sender : κ) (message : Sent) : Prop :=
  ∃ proto dest values types, (parties sender).object message.name = some proto ∧
    Fits (parties sender).setup.numerals proto message.arguments dest values types ∧
    message.send.payload = idBytes proto.id ++ encodeAll types values

/-- The state of the traffic: what is on the way, and what has come of what has arrived. -/
structure Sound (parties : κ → Party) (traffic : Traffic κ) : Prop where
  carries : ∀ sender, ∀ message ∈ traffic.sent sender, Carries parties sender message
  served : ∀ receiver, List.Forall₂ (Served parties traffic receiver) (traffic.received receiver)
    (traffic.calls receiver)

theorem sound_start (parties : κ → Party) : Sound parties (.start κ) :=
  ⟨fun _ _ member => absurd member List.not_mem_nil, fun _ => .nil⟩

theorem object_spec {party : Party} (sited : Sited party.setup party.world) {name : Bytes}
    {proto : NetProtocol} (found : party.object name = some proto) :
    party.world.protos[proto.id]? = some proto ∧ proto.packFuncName = name ∧
      proto.isMaker = false := by
  rcases Option.bind_eq_some_iff.mp found with ⟨self, caller, searched⟩
  have same : proto.self = self := by simpa using List.find?_some searched
  subst same
  rcases List.mem_iff_getElem?.mp (List.mem_of_find?_eq_some searched) with ⟨id, registered⟩
  have numbered := sited.numbered registered
  have named := sited.named caller registered
  exact ⟨numbered ▸ registered, (LuaKey.string.inj named).symm, sited.calling caller registered⟩

variable {parties : κ → Party}

/-- What one side calls, the other side implements. -/
theorem Loaded.implements (loaded : Loaded parties) {sender receiver : κ}
    (apart : (parties sender).setup.curChar ≠ (parties receiver).setup.curChar)
    {proto : NetProtocol} (numbered : proto.id ≠ 0)
    (registered : (parties sender).world.protos[proto.id]? = some proto)
    (calling : proto.isMaker = false) :
    ∃ theirs handler, (parties receiver).world.protos[proto.id]? = some theirs ∧
      theirs.args = proto.args ∧ theirs.packFuncName = proto.packFuncName ∧
      theirs.unpackRef = some handler ∧ handler.isFunction = true := by
  have within := (List.getElem?_eq_some_iff.mp registered).1
  cases role : (parties sender).setup.curChar with
  | client =>
      have other : (parties receiver).setup.curChar = .server := by
        cases theirRole : (parties receiver).setup.curChar with
        | client => exact absurd (role.trans theirRole.symm) apart
        | server => rfl
      have twins := loaded.twins sender receiver role other
      have found := List.getElem?_eq_getElem (twins.length ▸ within)
      rcases twins.twin registered found with ⟨-, pair | ⟨zero, -⟩⟩
      · rcases pair.theirs_bound (by rw [pair.isMaker, calling]; rfl) with
          ⟨handler, bound, callable⟩
        exact ⟨_, handler, found, pair.args.symm, pair.packFuncName.symm, bound, callable⟩
      · exact absurd zero numbered
  | server =>
      have other : (parties receiver).setup.curChar = .client := by
        cases theirRole : (parties receiver).setup.curChar with
        | client => rfl
        | server => exact absurd (role.trans theirRole.symm) apart
      have twins := loaded.twins receiver sender other role
      have found := List.getElem?_eq_getElem (twins.length.symm ▸ within)
      rcases twins.twin found registered with ⟨-, pair | ⟨zero, -⟩⟩
      · have makes := pair.isMaker
        rw [calling] at makes
        rcases pair.ours_bound (by simpa using makes.symm) with ⟨handler, bound, callable⟩
        exact ⟨_, handler, found, pair.args, pair.packFuncName, bound, callable⟩
      · exact absurd zero numbered

/-- A call goes through, and its messages carry it. -/
theorem post_carries {caller : κ} {name : Bytes}
    {arguments : List LuaValue} {proto : NetProtocol} {dest : LuaValue} {values : List LuaValue}
    {types : List ArgType} (found : (parties caller).object name = some proto)
    (fits : Fits (parties caller).setup.numerals proto arguments dest values types)
    (calls : List (LuaValue × List LuaValue)) :
    ∃ posted, (parties caller).post name arguments calls = some posted ∧
      ∀ message ∈ posted, Carries parties caller message := by
  have posts := posts_pack fits.numbered fits.built fits.inDomain dest calls []
  have stack : arguments.reverse = values.reverse ++ [dest] := by
    rw [fits.arguments, List.reverse_cons]
  rcases Option.isSome_iff_exists.mp posts.survives with ⟨sender, survives⟩
  have last := (survived_eq_some survives).symm
  refine ⟨sender.sends.map fun send => ⟨name, arguments, send⟩, ?_, ?_⟩
  · rw [Party.post, found, Option.bind_some, stack, survives]
    rfl
  · intro message member
    rcases List.mem_map.mp member with ⟨send, among, rfl⟩
    rcases posts.posted with none | ⟨only, one, payload⟩
    · rw [last, none] at among
      cases among
    · rw [last, one] at among
      rcases List.mem_singleton.mp among with rfl
      exact ⟨proto, dest, values, types, found, fits, payload⟩

/-- A message is accepted, and the function that it calls is called once. -/
theorem accept_served (loaded : Loaded parties) {traffic : Traffic κ} {receiver : κ}
    {delivery : Received κ} {message : Sent}
    (apart : (parties delivery.sender).setup.curChar ≠ (parties receiver).setup.curChar)
    (onTheWay : (traffic.sent delivery.sender)[delivery.index]? = some message)
    (carries : Carries parties delivery.sender message)
    (calls : List (LuaValue × List LuaValue)) :
    ∃ call, (parties receiver).accept message.send.payload delivery.ext calls =
        some (calls ++ [call]) ∧ Served parties traffic receiver delivery call := by
  rcases carries with ⟨proto, dest, values, types, found, fits, payload⟩
  rcases object_spec (loaded.sited delivery.sender) found with ⟨registered, named, calling⟩
  rcases loaded.implements apart fits.numbered registered calling with
    ⟨theirs, handler, theirPlace, sameArgs, sameName, bound, callable⟩
  have sameNumerals := loaded.numerals delivery.sender receiver
  have bounded : proto.id ≤ 65535 := by
    have within := (List.getElem?_eq_some_iff.mp registered).1
    have few := loaded.few delivery.sender
    omega
  have theirFits : Fits (parties receiver).setup.numerals proto message.arguments dest values
      types := sameNumerals ▸ fits
  rcases unpackData_called theirPlace fits.numbered bounded (sameArgs ▸ theirFits.built)
    fits.inDomain bound callable (loaded.raises receiver) delivery.ext ⟨[], [], calls⟩ with
    ⟨after, returns, recorded⟩
  refine ⟨(handler, .number delivery.ext :: restrictAll types values), ?_, ?_⟩
  · rw [Party.accept, payload, returns, Option.map_some, recorded]
  · exact ⟨message, proto, theirs, handler, dest, values, types, onTheWay, found, theirFits,
      theirPlace, sameName.trans named, bound, rfl⟩

/-- What has been served stays so when more messages are sent. -/
theorem Served.mono {traffic next : Traffic κ}
    (more : ∀ sender, traffic.sent sender <+: next.sent sender) {receiver : κ}
    {delivery : Received κ} {call : LuaValue × List LuaValue}
    (served : Served parties traffic receiver delivery call) :
    Served parties next receiver delivery call := by
  rcases served with ⟨message, proto, theirs, handler, dest, values, types, onTheWay, rest⟩
  rcases more delivery.sender with ⟨later, same⟩
  have within := (List.getElem?_eq_some_iff.mp onTheWay).1
  refine ⟨message, proto, theirs, handler, dest, values, types, ?_, rest⟩
  rw [← same, List.getElem?_append_left within, onTheWay]

section Steps

variable [DecidableEq κ] {traffic : Traffic κ}

theorem isPrefix_sending (traffic : Traffic κ) (acting : κ) (posted : List Sent) (sender : κ) :
    traffic.sent sender <+: (traffic.sending acting posted).sent sender := by
  by_cases same : sender = acting
  · subst same
    rw [sent_sending]
    exact List.prefix_append _ _
  · rw [sent_sending_of_ne traffic same]

theorem Sound.sending (sound : Sound parties traffic) {acting : κ} {posted : List Sent}
    (carried : ∀ message ∈ posted, Carries parties acting message) :
    Sound parties (traffic.sending acting posted) := by
  constructor
  · intro sender message member
    by_cases same : sender = acting
    · subst same
      rw [sent_sending, List.mem_append] at member
      rcases member with old | new
      · exact sound.carries sender message old
      · exact carried message new
    · rw [sent_sending_of_ne traffic same] at member
      exact sound.carries sender message member
  · intro receiver
    apply (sound.served receiver).imp
    intro delivery call served
    exact served.mono (isPrefix_sending traffic acting posted)

theorem Sound.receiving (sound : Sound parties traffic) {acting : κ} {delivery : Received κ}
    {call : LuaValue × List LuaValue} (served : Served parties traffic acting delivery call) :
    Sound parties (traffic.receiving acting delivery (traffic.calls acting ++ [call])) := by
  refine ⟨sound.carries, ?_⟩
  intro receiver
  by_cases same : receiver = acting
  · subst same
    rw [received_receiving, calls_receiving]
    exact List.rel_append (sound.served receiver) (.cons served .nil)
  · rcases receiving_of_ne traffic same delivery (traffic.calls acting ++ [call]) with
      ⟨sameReceived, sameCalls⟩
    rw [sameReceived, sameCalls]
    exact sound.served receiver

/-- Every event that is allowed goes through and keeps the state sound. -/
theorem Sound.step (loaded : Loaded parties) (sound : Sound parties traffic) {event : Event κ}
    (allowed : Allowed parties traffic event) :
    ∃ next, Rpc.step parties traffic event = some next ∧ Sound parties next := by
  cases event with
  | call caller name arguments =>
      rcases allowed with ⟨proto, dest, values, types, found, fits⟩
      rcases post_carries found fits (traffic.calls caller) with ⟨posted, succeeds, carried⟩
      refine ⟨traffic.sending caller posted, ?_, sound.sending carried⟩
      rw [Rpc.step, succeeds, Option.map_some]
  | deliver receiver sender index ext =>
      rcases allowed with ⟨apart, within⟩
      let delivery : Received κ := ⟨sender, index, ext⟩
      have onTheWay : (traffic.sent delivery.sender)[delivery.index]? = some _ :=
        List.getElem?_eq_getElem within
      have carries := sound.carries sender _ (List.getElem_mem within)
      rcases accept_served loaded apart onTheWay carries (traffic.calls receiver) with
        ⟨call, accepted, served⟩
      refine ⟨traffic.receiving receiver delivery (traffic.calls receiver ++ [call]), ?_,
        sound.receiving served⟩
      rw [Rpc.step, onTheWay, Option.bind_some, accepted, Option.map_some]

end Steps

/-! ## Whole runs -/

/--
Parties that have made the same calls of `add_protocol` and `update_protocol`, each with the
same outcome on both sides and with a file that does not name the type `array`.  They start
with the same types and without closures, and an id fits into two bytes.  Script functions
raise strings or numbers as errors, if any.
-/
structure LoadedBy (parties : κ → Party) (args : List ArgObj)
    (globals : κ → List (LuaKey × LuaValue)) (loads : List Call) : Prop where
  raises : ∀ party, RaisesText (parties party).script
  numerals : ∀ first second, (parties first).setup.numerals = (parties second).setup.numerals
  unbound : ∀ party key, callerOf (parties party).setup (.init args (globals party)) key = none
  reached : ∀ party, run (attempt (parties party).setup) (.init args (globals party)) loads =
    some (parties party).world
  few : ∀ party, (parties party).world.protos.length ≤ 65536
  paired : ∀ client server, (parties client).setup.curChar = .client →
    (parties server).setup.curChar = .server →
    StepsMeet (attemptBoth (parties client).setup (parties server).setup)
      (Paired (parties client).setup (parties server).setup)
      (.init args (globals client), .init args (globals server)) loads

theorem LoadedBy.loaded {args : List ArgObj} {globals : κ → List (LuaKey × LuaValue)}
    {loads : List Call} (loadedBy : LoadedBy parties args globals loads) : Loaded parties := by
  refine ⟨loadedBy.raises, loadedBy.numerals, ?_, loadedBy.few, ?_⟩
  · intro party
    exact sited_of_run (loadedBy.unbound party) (loadedBy.reached party)
  · intro client server isClient isServer
    have twins : StatesMeet (attemptBoth (parties client).setup (parties server).setup)
        (fun worlds => Twins worlds.1 worlds.2)
        (.init args (globals client), .init args (globals server)) loads :=
      twins_of_paired isClient isServer (loadedBy.numerals client server) args (globals client)
        (globals server) (loadedBy.paired client server isClient isServer)
    exact twins.last (run_attemptBoth (loadedBy.reached client) (loadedBy.reached server))

/--
Whatever the order of calls and deliveries is, every party goes on, and the functions that it
has called are those of the messages that were delivered to it, one for each delivery.
-/
theorem deliveries_served [DecidableEq κ] {args : List ArgObj}
    {globals : κ → List (LuaKey × LuaValue)} {loads : List Call}
    (loadedBy : LoadedBy parties args globals loads) {events : List (Event κ)}
    (allowed : StepsMeet (step parties) (Allowed parties) (.start κ) events) :
    ∃ final, run (step parties) (.start κ) events = some final ∧
      ∀ receiver, List.Forall₂ (Served parties final receiver) (final.received receiver)
        (final.calls receiver) := by
  have loaded := loadedBy.loaded
  rcases exists_run_of_stepsMeet (fun sound allowed => Sound.step loaded sound allowed)
    (sound_start parties) allowed with ⟨final, reached, sound⟩
  exact ⟨final, reached, sound.served⟩

end System

/-- A client and a server that implement a protocol each. -/
def ownTable : CurChar → List (LuaKey × LuaValue)
  | .client => makerTable "c_foo"
  | .server => makerTable "s_bar"

def bothLoads : List Call := twoFiles.map .add

def both (side : CurChar) : Party where
  setup := oneMaker side
  script := fun _ => none
  world := (run (attempt (oneMaker side)) (.init initArgs (ownTable side)) bothLoads).getD
    (.init [] [])

theorem both_loadedBy : LoadedBy both initArgs ownTable bothLoads := by
  constructor
  · intro side calls error raised
    cases raised
  · intro first second
    rfl
  · intro side key
    cases side with
    | client => rfl
    | server => rfl
  · intro side
    have succeeds : (run (attempt (oneMaker side)) (.init initArgs (ownTable side))
        bothLoads).isSome = true := by
      cases side with
      | client => decide +kernel
      | server => decide +kernel
    rcases Option.isSome_iff_exists.mp succeeds with ⟨world, reached⟩
    simp only [both, reached, Option.getD_some]
  · intro side
    cases side with
    | client => decide +kernel
    | server => decide +kernel
  · intro ours theirs isClient isServer
    obtain rfl : ours = .client := isClient
    obtain rfl : theirs = .server := isServer
    decide +kernel

/-- The client calls the server, which gets the message twice. -/
def callTwice : List (Event CurChar) :=
  [.call .client (ofString "s_bar") [.number (7 : ℤ), .string (ofString "text")],
    .deliver .server .client 0 3, .deliver .server .client 0 4]

theorem callTwice_allowed : StepsMeet (step both) (Allowed both) (.start CurChar) callTwice := by
  have sentOnce : (step both (.start CurChar) (.call .client (ofString "s_bar")
      [.number (7 : ℤ), .string (ofString "text")])).map (fun traffic =>
        (traffic.sent .client).length) = some 1 := by
    decide +kernel
  have stillSent {traffic next : Traffic CurChar} {ext : ℤ}
      (stepped : step both traffic (.deliver .server .client 0 ext) = some next) :
      next.sent = traffic.sent := by
    rcases Option.bind_eq_some_iff.mp stepped with ⟨message, -, accepted⟩
    rcases Option.map_eq_some_iff.mp accepted with ⟨calls, -, rfl⟩
    rfl
  have called : ∃ proto, (both .client).object (ofString "s_bar") = some proto ∧
      Fits (both .client).setup.numerals proto [.number (7 : ℤ), .string (ofString "text")]
        (.number (7 : ℤ)) [.string (ofString "text")] [.string] := by
    have seen : ((both .client).object (ofString "s_bar")).map (fun proto =>
        (proto.id, proto.args.map fun arg => arg.codec matches .string)) = some (2, [true]) := by
      decide +kernel
    rcases Option.map_eq_some_iff.mp seen with ⟨proto, found, same⟩
    rw [Prod.mk.injEq, List.map_eq_singleton_iff] at same
    rcases same with ⟨numbered, arg, args, isString⟩
    have codec : arg.codec = .string := by
      split at isString
      · assumption
      · cases isString
    have built : BuiltArgs (both .client).setup.numerals proto.args [.string] := by
      rw [args]
      exact .cons (codec ▸ .string) .nil
    exact ⟨proto, found, by omega, rfl, built, .cons ⟨_, rfl, by decide⟩ .nil⟩
  rcases called with ⟨proto, found, fits⟩
  refine ⟨⟨proto, _, _, _, found, fits⟩, ?_⟩
  intro first posted
  have one : (first.sent .client).length = 1 := by
    rw [posted] at sentOnce
    exact Option.some.inj sentOnce
  refine ⟨⟨by decide, by omega⟩, ?_⟩
  intro second delivered
  refine ⟨⟨by decide, ?_⟩, fun _ _ => trivial⟩
  rw [stillSent delivered]
  omega

theorem deliveries_served_callTwice :
    ∃ final, run (step both) (.start CurChar) callTwice = some final ∧
      (final.received .server).length = 2 ∧
      List.Forall₂ (Served both final .server) (final.received .server) (final.calls .server) := by
  rcases deliveries_served both_loadedBy callTwice_allowed with ⟨final, reached, served⟩
  have twice : (run (step both) (.start CurChar) callTwice).map (fun traffic =>
      (traffic.received .server).length) = some 2 := by
    decide +kernel
  rw [reached] at twice
  exact ⟨final, reached, Option.some.inj twice, served .server⟩

end Rpc

end SimpleModule
