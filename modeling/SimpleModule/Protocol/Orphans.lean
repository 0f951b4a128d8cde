import SimpleModule.Protocol.Failures
import SimpleModule.Protocol.Registry

/-!
# Objects of failed loads

On the calling side a load stores its closure before it reads the arguments.  If these are
refused, `add_protocol` forgets the new object without deleting it, and after an error of Lua
neither method comes to deleting it.  The closure goes on to work on this object: with the id
that the object was made for, and with the arguments before the refused one.  Only
`update_protocol` deletes the object whose arguments it has refused.
-/

namespace SimpleModule

open Octets Exits Runs

namespace NetProtocol

/-- The arguments that the loop in `arglist_proc` has put into the object when it ends. -/
def pushedArgs (numerals : Numerals) : List LuaValue → (args : List ArgObj) → List ArgObj
  | [], _ => []
  | desc :: rest, args =>
      match readArg numerals desc args with
      | (.ret (some arg), after) => arg :: pushedArgs numerals rest after
      | _ => []

/-- If no argument is refused, these are the arguments of the protocol. -/
theorem pushedArgs_of_ret {numerals : Numerals} {entries : List LuaValue}
    {args list registry : List ArgObj}
    (listed : readArgs numerals entries args = (.ret (some list), registry)) :
    pushedArgs numerals entries args = list := by
  induction entries generalizing args list with
  | nil =>
      cases listed
      rfl
  | cons desc rest ih =>
      rw [readArgs] at listed
      rcases Program.bind_eq_ret_iff.mp listed with ⟨arg, between, read, later⟩
      cases arg with
      | none => cases later
      | some arg =>
          rcases Program.bind_eq_ret_iff.mp later with ⟨others, after, again, ended⟩
          cases others with
          | none => cases ended
          | some others =>
              cases ended
              rw [pushedArgs, read]
              simp only [ih again]

/-- The object of a load that has stored its closure, whatever became of the arguments. -/
def closureObject (setup : Setup) (id : ℕ) (file : DescFile) (world : World) :
    Option NetProtocol :=
  match described setup file with
  | some (name, false, desc) =>
      some ⟨world.nextSelf, id,
        pushedArgs setup.numerals ((argEntries desc).getD []) world.args, name, none, false⟩
  | _ => none

/-- After a successful load on the calling side this is the new protocol. -/
theorem closureObject_of_load {setup : Setup} {id : ℕ} {file : DescFile} {world after : World}
    {new : NetProtocol} (calling : new.isMaker = false)
    (loads : (create id >>= fun proto => proto.load setup file) world =
      (.ret (some new), after)) :
    closureObject setup id file world = some new := by
  rcases Program.bind_eq_ret_iff.mp loads with ⟨proto, begun, created, load⟩
  cases created
  rcases load_eq_some load with
    ⟨name, isMaker, desc, bound, stored, args, registry, read, processed, listed, rfl, -⟩
  rcases funcProc_ret processed with ⟨-, unpackRef, rfl⟩
  obtain rfl : isMaker = false := calling
  cases processed
  rw [args_storeClosure, arglistProc_eq] at listed
  rcases entries : argEntries desc with _ | list
  · rw [entries] at listed
    cases listed
  · rw [entries] at listed
    simp only [closureObject, read, entries, Option.getD_some, pushedArgs_of_ret listed]
    rfl

end NetProtocol

namespace ProtoManager

open NetProtocol

/-- The object that a call leaves behind without registering it, by the end of the call. -/
def Call.orphan (setup : Setup) (world : World) (call : Call) : Exit Bool → Option NetProtocol
  | .ret true => none
  | .ret false =>
      match call with
      | .add file => closureObject setup (call.target setup world) file world
      | .update _ _ => none
  | .raise => closureObject setup (call.target setup world) call.file world
  | .abort => none
  | .fault => none

section Orphan

variable {setup : Setup} {world : World} {call : Call} {proto : NetProtocol}

theorem closureObject_eq_some {id : ℕ} {file : DescFile}
    (left : closureObject setup id file world = some proto) :
    proto.self = world.nextSelf ∧
      ∃ desc, described setup file = some (proto.packFuncName, false, desc) := by
  unfold closureObject at left
  split at left
  · rename_i name desc read
    cases left
    exact ⟨rfl, desc, read⟩
  · cases left

theorem orphan_eq_some {ended : Exit Bool} (left : call.orphan setup world ended = some proto) :
    proto.self = world.nextSelf ∧
      ∃ desc, described setup call.file = some (proto.packFuncName, false, desc) := by
  unfold Call.orphan at left
  split at left
  · cases left
  · split at left
    · exact closureObject_eq_some left
    · cases left
  · exact closureObject_eq_some left
  · cases left
  · cases left

/-- Only a call that has made an object leaves one. -/
theorem loads_of_orphan (started : 0 < world.protos.length)
    (left : call.orphan setup world (call.program setup world).1 = some proto) :
    call.loads setup world = true := by
  cases call with
  | add file => rfl
  | update idArg file =>
      rw [program_eq started] at left
      split_ifs at left with loads
      · exact loads
      · cases left

/-- The address of an orphan has been used, and its closure is in the caller table. -/
theorem orphan_left (started : 0 < world.protos.length)
    (left : call.orphan setup world (call.program setup world).1 = some proto) :
    proto.self < (call.program setup world).2.nextSelf ∧
      callerOf setup (call.program setup world).2 (.string proto.packFuncName) =
        some proto.self := by
  rcases orphan_eq_some left with ⟨self, desc, described⟩
  have loads := loads_of_orphan started left
  rw [program_eq started, if_pos loads] at left ⊢
  have outcome := loadOutcome setup world (call.target setup world) call.file (call.install setup)
  generalize loadNew setup (call.target setup world) call.file (call.install setup) world =
    result at outcome left ⊢
  cases outcome with
  | undescribed nothing => cases nothing.symm.trans described
  | unconstructed read => cases read.symm.trans described
  | unbound read => cases read.symm.trans described
  | loaded => cases left
  | @refused name isMaker _ more result read =>
      cases read.symm.trans described
      rcases begun_eq setup world proto.packFuncName false with ⟨globals, stored⟩
      constructor
      · rw [self, stored]
        exact Nat.lt_succ_self _
      · rw [self]
        exact (callerOf_begun setup world proto.packFuncName false _).trans (if_pos ⟨rfl, rfl⟩)

end Orphan

end ProtoManager

end SimpleModule
