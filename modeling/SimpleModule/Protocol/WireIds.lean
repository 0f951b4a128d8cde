import SimpleModule.Protocol.Failures

/-!
# Ids on the wire

Ids count the registered protocols and have no bound, but a message has room for two bytes
of an id.  The ids of all protocols are read back exactly if there are at most 65535 of
them; the next one is read back as zero.
-/

namespace SimpleModule

open Octets Exits Runs

namespace ProtoManager

open NetProtocol

/-- The id that `marshal` writes is the id that `unpack_data` reads, whatever follows it. -/
def IdReadsBack (id : ℕ) : Prop :=
  ∀ rest : Bytes, ∃ header, wireId (idBytes id ++ rest) = some (id, header)

theorem readsBack_iff {id : ℕ} (positive : 1 ≤ id) : IdReadsBack id ↔ id ≤ 65535 := by
  constructor
  · intro reads
    rcases reads [] with ⟨header, read⟩
    rw [wireId_idBytes positive, Option.some.injEq, Prod.mk.injEq] at read
    have same := read.1
    split_ifs at same
    · omega
    · have bounded := Nat.mod_lt id (show 65536 > 0 by omega)
      omega
  · intro bounded rest
    refine ⟨(idBytes id).length, (wireId_idBytes positive rest).trans ?_⟩
    congr 2
    split_ifs
    · rfl
    · exact Nat.mod_eq_of_lt (by omega)

/-- The ids of any two different protocols are read back. -/
def DistinctOnWire (world : World) : Prop :=
  ∀ (i j : ℕ) (first second : NetProtocol), 1 ≤ i → 1 ≤ j → i ≠ j →
    world.protos[i]? = some first → world.protos[j]? = some second →
    first.id = i ∧ second.id = j ∧ IdReadsBack first.id ∧ IdReadsBack second.id

/-! ## Runs of successful calls -/

section Adds

variable {setup : Setup} {world final : World}

theorem callStep_add {file : DescFile} {after : World}
    (stepped : callStep setup world (.add file) = some after) :
    after.protos.length = world.protos.length + 1 ∧
      ((∀ {id : ℕ} {proto : NetProtocol}, world.protos[id]? = some proto → proto.id = id) →
        ∀ {id : ℕ} {proto : NetProtocol}, after.protos[id]? = some proto → proto.id = id) := by
  rcases callStep_registers stepped with ⟨new, desc, -, registers⟩
  constructor
  · have here := (List.getElem?_eq_some_iff.mp registers.here).1
    have beyond : after.protos[world.protos.length + 1]? = none := by
      rw [registers.elsewhere _ (by simp [Call.target])]
      exact List.getElem?_eq_none (by omega)
    have limit := List.getElem?_eq_none_iff.mp beyond
    simp only [Call.target] at here
    omega
  · intro numbered id proto found
    rcases registers.found found with ⟨rfl, rfl⟩ | ⟨-, old⟩
    · exact registers.numbered
    · exact numbered old

/-- A run of additions numbers its protocols. -/
theorem adds_numbered {files : List DescFile}
    (numbered : ∀ {id : ℕ} {proto : NetProtocol}, world.protos[id]? = some proto → proto.id = id)
    (reached : run (callStep setup) world (files.map Call.add) = some final) :
    final.protos.length = world.protos.length + files.length ∧
      ∀ {id : ℕ} {proto : NetProtocol}, final.protos[id]? = some proto → proto.id = id := by
  induction files generalizing world with
  | nil =>
      cases reached
      exact ⟨rfl, numbered⟩
  | cons file rest ih =>
      rw [List.map_cons, run_cons, Option.bind_eq_some_iff] at reached
      rcases reached with ⟨after, stepped, later⟩
      rcases callStep_add stepped with ⟨longer, kept⟩
      rcases ih (kept numbered) later with ⟨length, ids⟩
      refine ⟨?_, ids⟩
      rw [length, longer, List.length_cons]
      omega

theorem adds_init_numbered {args : List ArgObj} {globals : List (LuaKey × LuaValue)}
    {files : List DescFile}
    (reached : run (callStep setup) (.init args globals) (files.map Call.add) = some final) :
    final.protos.length = 1 + files.length ∧
      ∀ {id : ℕ} {proto : NetProtocol}, final.protos[id]? = some proto → proto.id = id := by
  apply adds_numbered _ reached
  intro id proto found
  cases id with
  | zero =>
      cases found
      rfl
  | succ id => cases found

/-- The id that comes after all ids of two bytes. -/
theorem not_distinctOnWire (long : 65536 < world.protos.length) : ¬DistinctOnWire world := by
  intro distinct
  rcases distinct 65536 1 _ _ (by omega) le_rfl (by omega) (List.getElem?_eq_getElem long)
    (List.getElem?_eq_getElem (by omega)) with ⟨numbered, -, reads, -⟩
  rw [numbered, readsBack_iff (by omega)] at reads
  omega

/--
After any number of successful calls of `add_protocol`, the ids of the registered protocols
are read back exactly if there are at most 65535 of them.
-/
theorem distinctOnWire_iff {args : List ArgObj} {globals : List (LuaKey × LuaValue)}
    {files : List DescFile}
    (reached : run (callStep setup) (.init args globals) (files.map Call.add) = some world) :
    DistinctOnWire world ↔ files.length ≤ 65535 := by
  rcases adds_init_numbered reached with ⟨length, numbered⟩
  constructor
  · intro distinct
    by_contra long
    exact not_distinctOnWire (by omega) distinct
  · intro few i j first second lower lower' _ foundFirst foundSecond
    have bound := (List.getElem?_eq_some_iff.mp foundFirst).1
    have bound' := (List.getElem?_eq_some_iff.mp foundSecond).1
    have same := numbered foundFirst
    have same' := numbered foundSecond
    refine ⟨same, same', ?_, ?_⟩
    · rw [same, readsBack_iff lower]
      omega
    · rw [same', readsBack_iff lower']
      omega

theorem distinctOnWire_two_files :
    ∃ world, run (callStep clientSide) (.init initArgs [])
        ([noArgs "pto/s_a.pto", noArgs "pto/s_b.pto"].map Call.add) = some world ∧
      DistinctOnWire world := by
  have succeeds : (run (callStep clientSide) (.init initArgs [])
      ([noArgs "pto/s_a.pto", noArgs "pto/s_b.pto"].map Call.add)).isSome = true := by
    decide +kernel
  rcases Option.isSome_iff_exists.mp succeeds with ⟨world, reached⟩
  exact ⟨world, reached, (distinctOnWire_iff reached).mpr (by decide)⟩

/-- A file that is called here and whose arguments resolve can always be added. -/
theorem callStep_add_isSome {file : DescFile} {name : Bytes} {desc : LuaValue}
    (started : 0 < world.protos.length) (read : described setup file = some (name, false, desc))
    (resolve : argsResolve setup.numerals world.args desc = true) :
    ∃ after, callStep setup world (.add file) = some after := by
  have outcome := loadOutcome setup world ((Call.add file).target setup world)
    (Call.add file).file ((Call.add file).install setup)
  have whole : (Call.add file).program setup world = loadNew setup
      ((Call.add file).target setup world) (Call.add file).file ((Call.add file).install setup)
      world := (program_eq started (Call.add file)).trans (if_pos rfl)
  unfold callStep
  rw [whole]
  generalize loadNew setup ((Call.add file).target setup world) (Call.add file).file
    ((Call.add file).install setup) world = result at outcome
  cases outcome with
  | undescribed nothing =>
      have missing : described setup file = none := nothing
      rw [read] at missing
      cases missing
  | unconstructed other =>
      have maker : described setup file = some (_, true, _) := other
      rw [read] at maker
      cases maker
  | unbound other =>
      have maker : described setup file = some (_, true, _) := other
      rw [read] at maker
      cases maker
  | loaded => exact ⟨_, rfl⟩
  | refused other binds unresolved =>
      have again : described setup file = some (_, _, _) := other
      rw [read] at again
      cases again
      rw [resolve] at unresolved
      cases unresolved

theorem run_adds_isSome {file : DescFile} {name : Bytes} {desc : LuaValue}
    (started : 0 < world.protos.length) (read : described setup file = some (name, false, desc))
    (resolve : ∀ args, argsResolve setup.numerals args desc = true) (count : ℕ) :
    ∃ final, run (callStep setup) world ((List.replicate count file).map Call.add) =
      some final := by
  induction count generalizing world with
  | zero => exact ⟨world, rfl⟩
  | succ count ih =>
      rcases callStep_add_isSome started read (resolve world.args) with ⟨after, stepped⟩
      rcases ih (by rw [(callStep_add stepped).1]; omega) with ⟨final, later⟩
      refine ⟨final, ?_⟩
      rw [List.replicate_succ, List.map_cons, run_cons, stepped]
      exact later

/-- A protocol without arguments, registered 65536 times. -/
theorem not_distinctOnWire_of_adds :
    ∃ world, run (callStep clientSide) (.init initArgs [])
        ((List.replicate 65536 (noArgs "pto/s_a.pto")).map Call.add) = some world ∧
      ¬DistinctOnWire world := by
  have read : described clientSide (noArgs "pto/s_a.pto") =
      some (ofString "s_a", false, .table [(.string (ofString "arg_list"), .table [])]) := by
    rfl
  have started : 0 < (World.init initArgs []).protos.length := Nat.one_pos
  rcases run_adds_isSome started read (fun _ => rfl) 65536 with ⟨world, reached⟩
  refine ⟨world, reached, not_distinctOnWire ?_⟩
  rw [(adds_init_numbered reached).1, List.length_replicate]
  omega

end Adds

end ProtoManager

end SimpleModule
