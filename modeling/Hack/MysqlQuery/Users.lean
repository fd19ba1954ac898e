import Hack.KeyedRows
import Hack.Machine

/-!
# Setting users in a database

This file embeds `GetUserByName` and `SetUser` of `0xgo/mysql-query/main.go` on the table of
`init.sql`. Setting a user is two statements: one looks the name up, and the other one updates the
row that was found or inserts a new one. Other clients may act between the two, and the table has
no key on the names, so two clients that both find no row both insert one.
-/

namespace Hack.MysqlQuery

open KeyedRows

/-- A row of the table `user`. -/
structure Row where
  userId : ℕ
  userName : String
  userPass : String
deriving DecidableEq

/-- The table `user`, with the next value of its `AUTO_INCREMENT` column. -/
structure Table where
  rows : List Row
  autoIncrement : ℕ
deriving DecidableEq

/-- The table after `init.sql`. -/
def Table.init : Table := ⟨[⟨1, "test1", "test1pw"⟩], 2⟩

/-- `DB_User`. -/
structure DbUser where
  userId : ℕ
  userName : String
  userPass : String
deriving DecidableEq

/-- `GetUserByName`, which finds nothing unless there is exactly one row. The name is not part of
what it selects. -/
def Table.getUserByName (t : Table) (name : String) : Option DbUser :=
  let dbuserRecords := (matching Row.userName t.rows name).map fun row =>
    (⟨row.userId, "", row.userPass⟩ : DbUser)
  if dbuserRecords.length ≠ 1 then none else dbuserRecords.head?

/-- The `INSERT` of `SetUser`. -/
def Table.insert (t : Table) (name pass : String) : Table :=
  ⟨t.rows ++ [⟨t.autoIncrement, name, pass⟩], t.autoIncrement + 1⟩

/-- What the `UPDATE` of `SetUser` does with a row. -/
def Row.update (pass : String) (userId : ℕ) (row : Row) : Row :=
  if row.userId = userId then { row with userPass := pass } else row

/-- The `UPDATE` of `SetUser`. -/
def Table.update (t : Table) (pass : String) (userId : ℕ) : Table :=
  { t with rows := t.rows.map (Row.update pass userId) }

/-- A call of `SetUser` between its two statements, with the user that was found. -/
structure Pending where
  name : String
  pass : String
  check : Option DbUser
deriving DecidableEq

/-- The second statement. -/
def Pending.exec (p : Pending) (t : Table) : Table :=
  match p.check with
  | some user => t.update p.pass user.userId
  | none => t.insert p.name p.pass

variable {Client : Type*} [DecidableEq Client] {other : Client} {p' : Pending}

/-- The table and the calls of the clients. -/
structure State (Client : Type*) where
  table : Table
  pending : Client → Option Pending

/-- The call of a client begins or ends. -/
def State.setPending (s : State Client) (client : Client) (p : Option Pending) : State Client :=
  { s with pending := Function.update s.pending client p }

/-- The steps of the clients. -/
inductive Step (Client : Type*)
  /-- A call begins with its `SELECT`. -/
  | select (client : Client) (name pass : String)
  /-- A call ends with its `INSERT` or `UPDATE`. -/
  | exec (client : Client)
  /-- A call ends with an error, and its second statement has no effect. -/
  | fail (client : Client)

/-- The clients with their table. -/
def users (Client : Type*) [DecidableEq Client] : Machine (State Client) (Step Client) where
  start s := s.table = .init ∧ ∀ client, s.pending client = none
  next s
    | .select client name pass =>
      if s.pending client = none then
        some (s.setPending client (some ⟨name, pass, s.table.getUserByName name⟩))
      else none
    | .exec client => (s.pending client).map fun p =>
      { s with table := p.exec s.table }.setPending client none
    | .fail client => (s.pending client).map fun _ => s.setPending client none

/-- The name and the password of the statement that a step executes. -/
def executes (s : State Client) : Step Client → List (String × String)
  | .select _ _ _ => []
  | .exec client => ((s.pending client).map fun p => (p.name, p.pass)).toList
  | .fail _ => []

/-- The password of the last statement for a name, among those of `init.sql` and of the
clients. -/
def lastWritten (log : List (String × String)) (name : String) : Option String :=
  ((("test1", "test1pw") :: log).reverse.find? fun w => w.1 = name).map Prod.snd

/-- A call looks a name up only while no other call for that name is about to insert it. -/
def Unraced (s : State Client) : Step Client → Prop
  | .select _ name _ => ∀ other p, s.pending other = some p → p.name = name → p.check ≠ none
  | .exec _ => True
  | .fail _ => True

@[simp] theorem State.setPending_pending_self (s : State Client) (client : Client)
    (p : Option Pending) : (s.setPending client p).pending client = p := by
  simp [State.setPending]

@[simp] theorem State.setPending_pending_of_ne (s : State Client) {client : Client}
    (p : Option Pending) (hne : other ≠ client) :
    (s.setPending client p).pending other = s.pending other := by
  simp [State.setPending, hne]

@[simp] theorem Row.update_userId (pass : String) (userId : ℕ) (row : Row) :
    (row.update pass userId).userId = row.userId := by
  unfold Row.update
  split_ifs <;> rfl

@[simp] theorem Row.update_userName (pass : String) (userId : ℕ) (row : Row) :
    (row.update pass userId).userName = row.userName := by
  unfold Row.update
  split_ifs <;> rfl

/-- A call that is pending after one client has begun or ended a call is the new one, or was
there before. -/
theorem State.pending_setPending {s : State Client} {client : Client} {p : Option Pending}
    (h : (s.setPending client p).pending other = some p') :
    other = client ∧ p = some p' ∨ other ≠ client ∧ s.pending other = some p' := by
  rcases eq_or_ne other client with rfl | hne
  · exact .inl ⟨rfl, by simpa using h⟩
  · exact .inr ⟨hne, by simpa [hne] using h⟩

/-- What one more statement makes the last one. -/
theorem lastWritten_concat (log : List (String × String)) (name pass n : String) :
    lastWritten (log ++ [(name, pass)]) n = if name = n then some pass else lastWritten log n := by
  unfold lastWritten
  rw [← List.cons_append, List.reverse_append, List.reverse_singleton, List.singleton_append,
    List.find?_cons]
  split_ifs with h <;> simp [h]

variable {t : Table} {log : List (String × String)} {name pass : String} {row : Row}

/-- The table holds, for each name, the password of the last statement and no other row. -/
def Stores (t : Table) (log : List (String × String)) : Prop :=
  ∀ n, (matching Row.userName t.rows n).map Row.userPass = (lastWritten log n).toList

/-- A name has at most one row. -/
theorem Stores.length_le_one (hstores : Stores t log) (n : String) :
    (matching Row.userName t.rows n).length ≤ 1 := by
  have hlength := congrArg List.length (hstores n)
  rw [List.length_map] at hlength
  rw [hlength]
  cases lastWritten log n <;> simp

/-- A name that was written has a row. -/
theorem Stores.lastWritten_ne_none (hstores : Stores t log) (hrow : row ∈ t.rows) :
    lastWritten log row.userName ≠ none := by
  intro hnone
  have hrows := hstores row.userName
  rw [hnone, matching_eq_singleton (hstores.length_le_one _) hrow rfl] at hrows
  cases hrows

/-- What `GetUserByName` returns is decided by the rows of the name. -/
theorem Stores.getUserByName_eq (hstores : Stores t log) (n : String) :
    (t.getUserByName n).map DbUser.userPass = lastWritten log n := by
  have hrows := hstores n
  unfold Table.getUserByName
  cases hlast : lastWritten log n with
  | none =>
    rw [hlast] at hrows
    simp [List.map_eq_nil_iff.mp hrows]
  | some pass =>
    rw [hlast] at hrows
    obtain ⟨row, hrow, rfl⟩ := List.map_eq_singleton_iff.mp hrows
    simp [hrow]

/-- The user that is found is a row with that name. -/
theorem mem_of_getUserByName {user : DbUser} (h : t.getUserByName name = some user) :
    ∃ row ∈ t.rows, row.userId = user.userId ∧ row.userName = name := by
  simp only [Table.getUserByName, Option.ite_none_left_eq_some, List.head?_map,
    Option.map_eq_some_iff] at h
  obtain ⟨-, row, hrow, rfl⟩ := h
  obtain ⟨hmem, hname⟩ := mem_matching.mp (List.mem_of_mem_head? hrow)
  exact ⟨row, hmem, rfl, hname⟩

/-- Inserting a name that was never written. -/
theorem Stores.insert (hstores : Stores t log) (hnone : lastWritten log name = none) :
    Stores (t.insert name pass) (log ++ [(name, pass)]) := by
  intro n
  rw [Table.insert, matching_concat, lastWritten_concat, List.map_append, hstores n]
  split_ifs with h
  · rw [← h, hnone]
    rfl
  · exact List.append_nil _

/-- Updating a row of the name. -/
theorem Stores.update (hstores : Stores t log) (hids : (t.rows.map Row.userId).Nodup)
    (hrow : row ∈ t.rows) : Stores (t.update pass row.userId) (log ++ [(row.userName, pass)]) := by
  intro n
  rw [Table.update, lastWritten_concat, matching_map fun row => row.update_userName _ _]
  split_ifs with h
  · rw [matching_eq_singleton (hstores.length_le_one n) hrow h]
    simp [Row.update]
  · have hother : ∀ other : Row, other.userId ≠ row.userId →
        other.update pass row.userId = other := fun other hne => if_neg hne
    rw [map_matching_of_ne hids hrow h hother, hstores n]

/-- The invariant of the clients: an identifier has one row, the table holds what was written
last, a call about to insert is the only one for a name that was never written, and a call about
to update has found a row of its name. -/
structure Inv (s : State Client) (log : List (String × String)) : Prop where
  ids_nodup : (s.table.rows.map Row.userId).Nodup
  ids_lt : ∀ row ∈ s.table.rows, row.userId < s.table.autoIncrement
  stores : Stores s.table log
  inserting : ∀ client p, s.pending client = some p → p.check = none → lastWritten log p.name = none
  exclusive : ∀ client other p p', s.pending client = some p → s.pending other = some p' →
    p.check = none → p'.check = none → p.name = p'.name → client = other
  updating : ∀ client p user, s.pending client = some p → p.check = some user →
    ∃ row ∈ s.table.rows, row.userId = user.userId ∧ row.userName = p.name

variable {s s' : State Client} {client : Client} {p : Pending}

omit [DecidableEq Client] in
/-- The invariant holds of the table of `init.sql` before any call. -/
theorem inv_start (htable : s.table = .init) (hpending : ∀ client, s.pending client = none) :
    Inv s [] := by
  have hstores : Stores .init [] := by
    intro n
    by_cases hn : "test1" = n <;> simp [matching, Table.init, lastWritten, hn]
  have hidle : ∀ client p, s.pending client ≠ some p := fun client p hp => by
    rw [hpending client] at hp
    cases hp
  refine ⟨?_, ?_, htable ▸ hstores, ?_, ?_, ?_⟩
  · rw [htable]
    decide
  · rw [htable]
    decide
  · exact fun client p hp => absurd hp (hidle client p)
  · exact fun client other p p' hp => absurd hp (hidle client p)
  · exact fun client p user hp => absurd hp (hidle client p)

omit [DecidableEq Client] in
/-- A call for a name is about to insert it only if no other call for the name is pending. -/
theorem Inv.eq_of_name_eq (hinv : Inv s log) (hp : s.pending client = some p)
    (hp' : s.pending other = some p') (hcheck' : p'.check = none) (hname : p.name = p'.name) :
    client = other := by
  cases hcheck : p.check with
  | none => exact hinv.exclusive client other p p' hp hp' hcheck hcheck' hname
  | some user =>
    obtain ⟨row, hrow, -, hrowname⟩ := hinv.updating client p user hp hcheck
    have hwritten := hinv.stores.lastWritten_ne_none hrow
    rw [hrowname, hname] at hwritten
    exact absurd (hinv.inserting other p' hp' hcheck') hwritten

/-- The second statement keeps the identifiers and the names of all rows. -/
theorem Pending.exec_rows (p : Pending) (hrow : row ∈ t.rows) :
    ∃ row' ∈ (p.exec t).rows, row'.userId = row.userId ∧ row'.userName = row.userName := by
  unfold Pending.exec
  split
  · exact ⟨_, List.mem_map_of_mem hrow, row.update_userId _ _, row.update_userName _ _⟩
  · exact ⟨row, List.mem_append_left _ hrow, rfl, rfl⟩

/-- The second statement keeps identifiers unique. -/
theorem Pending.exec_ids (p : Pending) (hnodup : (t.rows.map Row.userId).Nodup)
    (hlt : ∀ row ∈ t.rows, row.userId < t.autoIncrement) : ((p.exec t).rows.map Row.userId).Nodup ∧
      ∀ row ∈ (p.exec t).rows, row.userId < (p.exec t).autoIncrement := by
  unfold Pending.exec
  split
  · refine ⟨?_, ?_⟩
    · simpa [Table.update, Function.comp_def] using hnodup
    · simpa [Table.update] using hlt
  · refine ⟨?_, ?_⟩
    · have hnew : t.autoIncrement ∉ t.rows.map Row.userId := by
        intro hmem
        obtain ⟨row, hrow, hid⟩ := List.mem_map.mp hmem
        exact absurd (hlt row hrow) (by omega)
      rw [Table.insert, List.map_append]
      exact hnodup.append (List.nodup_singleton _) (by simpa using hnew)
    · intro row hmem
      rcases List.mem_append.mp hmem with hold | hnew
      · exact Nat.lt_succ_of_lt (hlt row hold)
      · rw [List.mem_singleton.mp hnew]
        exact Nat.lt_succ_self _

omit [DecidableEq Client] in
/-- The second statement of a pending call. -/
theorem Inv.exec_stores (hinv : Inv s log) (hp : s.pending client = some p) :
    Stores (p.exec s.table) (log ++ [(p.name, p.pass)]) := by
  unfold Pending.exec
  split
  · rename_i user hcheck
    obtain ⟨row, hrow, hid, hname⟩ := hinv.updating client p user hp hcheck
    rw [← hid, ← hname]
    exact hinv.stores.update hinv.ids_nodup hrow
  · rename_i hcheck
    exact hinv.stores.insert (hinv.inserting client p hp hcheck)

/-- The end of a call leaves the others as they are. -/
theorem Inv.end_call (hinv : Inv s log) (client : Client) : Inv (s.setPending client none) log := by
  have hold : ∀ other p, (s.setPending client none).pending other = some p →
      s.pending other = some p := by
    intro other p hp
    rcases State.pending_setPending hp with ⟨-, hnone⟩ | ⟨-, hp⟩
    · cases hnone
    · exact hp
  exact ⟨hinv.ids_nodup, hinv.ids_lt, hinv.stores,
    fun other p hp => hinv.inserting other p (hold other p hp),
    fun other other' p p' hp hp' => hinv.exclusive other other' p p' (hold _ _ hp) (hold _ _ hp'),
    fun other p user hp => hinv.updating other p user (hold other p hp)⟩

/-- A call that ends with its second statement. -/
theorem Inv.exec (hinv : Inv s log) (hp : s.pending client = some p) :
    Inv ({ s with table := p.exec s.table }.setPending client none)
      (log ++ [(p.name, p.pass)]) := by
  obtain ⟨hnodup, hlt⟩ := p.exec_ids hinv.ids_nodup hinv.ids_lt
  have hrest := hinv.end_call client
  refine ⟨hnodup, hlt, hinv.exec_stores hp, fun other p' hp' hcheck' => ?_, hrest.exclusive,
    fun other p' user hp' hcheck' => ?_⟩
  · rcases State.pending_setPending hp' with ⟨-, hnone⟩ | ⟨hne, hold⟩
    · cases hnone
    · have hname : p.name ≠ p'.name := fun hname =>
        hne (hinv.eq_of_name_eq hp hold hcheck' hname).symm
      rw [lastWritten_concat, if_neg hname]
      exact hinv.inserting other p' hold hcheck'
  · obtain ⟨row, hrow, hid, hname⟩ := hrest.updating other p' user hp' hcheck'
    obtain ⟨row', hrow', hid', hname'⟩ := p.exec_rows hrow
    exact ⟨row', hrow', hid'.trans hid, hname'.trans hname⟩

/-- A call that begins while no other one is about to insert its name. -/
theorem Inv.select (hinv : Inv s log) (hunraced : Unraced s (.select client name pass)) :
    Inv (s.setPending client (some ⟨name, pass, s.table.getUserByName name⟩)) log := by
  have hnew : ∀ other p, s.pending other = some p → p.check = none → p.name ≠ name :=
    fun other p hp hcheck hname => hunraced other p hp hname hcheck
  refine ⟨hinv.ids_nodup, hinv.ids_lt, hinv.stores, fun other p hp hcheck => ?_,
    fun other other' p p' hp hp' hcheck hcheck' hname => ?_, fun other p user hp hcheck => ?_⟩
  · rcases State.pending_setPending hp with ⟨-, hsome⟩ | ⟨-, hold⟩
    · cases hsome
      have hnotfound : s.table.getUserByName name = none := hcheck
      rw [← hinv.stores.getUserByName_eq name, hnotfound, Option.map_none]
    · exact hinv.inserting other p hold hcheck
  · rcases State.pending_setPending hp with ⟨hclient, hsome⟩ | ⟨-, hold⟩
    · rcases State.pending_setPending hp' with ⟨hclient', -⟩ | ⟨-, hold'⟩
      · exact hclient.trans hclient'.symm
      · cases hsome
        exact absurd hname.symm (hnew other' p' hold' hcheck')
    · rcases State.pending_setPending hp' with ⟨-, hsome'⟩ | ⟨-, hold'⟩
      · cases hsome'
        exact absurd hname (hnew other p hold hcheck)
      · exact hinv.exclusive other other' p p' hold hold' hcheck hcheck' hname
  · rcases State.pending_setPending hp with ⟨-, hsome⟩ | ⟨-, hold⟩
    · cases hsome
      exact mem_of_getUserByName hcheck
    · exact hinv.updating other p user hold hcheck

/-- Every step that meets the condition keeps the invariant. -/
theorem Inv.next {step : Step Client} (hinv : Inv s log) (hunraced : Unraced s step)
    (h : (users Client).next s step = some s') : Inv s' (log ++ executes s step) := by
  cases step with
  | select client name pass =>
    simp only [users, Option.ite_none_right_eq_some, Option.some_inj] at h
    obtain ⟨-, rfl⟩ := h
    rw [executes, List.append_nil]
    exact hinv.select hunraced
  | exec client =>
    obtain ⟨p, hp, rfl⟩ := Option.map_eq_some_iff.mp h
    simpa only [executes, hp, Option.map_some, Option.toList_some] using hinv.exec hp
  | fail client =>
    obtain ⟨p, -, rfl⟩ := Option.map_eq_some_iff.mp h
    rw [executes, List.append_nil]
    exact hinv.end_call client

/-- In every run in which a call looks its name up only while no other call is about to insert
that name, a name never has more than one row, and looking it up gives the password of the last
statement for it. -/
theorem set_user_upserts
    (hreach : ((users Client).observed executes).ReachableUnder (fun s step => Unraced s.1 step)
      (s, log)) :
    ∀ n, (matching Row.userName s.table.rows n).length ≤ 1 ∧
      (s.table.getUserByName n).map DbUser.userPass = lastWritten log n := by
  have hinv : Inv s log := by
    refine hreach.observed_invariant Inv ?_ ?_
    · rintro s ⟨htable, hpending⟩
      exact inv_start htable hpending
    · intro s log step s' hinv hunraced hstep
      exact hinv.next hunraced hstep
  exact fun n => ⟨hinv.stores.length_le_one n, hinv.stores.getUserByName_eq n⟩

/-- Of two clients, one begins a call while none is pending. -/
def oneAtATime (s : State Bool × List (String × String)) : Step Bool → Bool
  | .select _ _ _ => s.1.pending false = none ∧ s.1.pending true = none
  | .exec _ => true
  | .fail _ => true

theorem unraced_of_oneAtATime (s : State Bool × List (String × String)) (step : Step Bool)
    (h : oneAtATime s step = true) : Unraced s.1 step := by
  cases step with
  | exec client => trivial
  | fail client => trivial
  | select client name pass =>
    obtain ⟨hfalse, htrue⟩ := of_decide_eq_true h
    intro other p hp
    cases other
    · rw [hfalse] at hp
      cases hp
    · rw [htrue] at hp
      cases hp

/-- One client sets a user that another one sets again. -/
theorem set_user_upserts_twice : ∃ s : State Bool, ∃ log,
    ((users Bool).observed executes).ReachableUnder (fun s step => Unraced s.1 step) (s, log) ∧
      log = [("ann", "first"), ("ann", "second")] ∧
      (s.table.getUserByName "ann").map DbUser.userPass = lastWritten log "ann" := by
  have hstart : ((users Bool).observed executes).ReachableUnder (fun s step => Unraced s.1 step)
      (⟨.init, fun _ => none⟩, []) := .start ⟨⟨rfl, fun _ => rfl⟩, rfl⟩
  obtain ⟨s, log, hrun, hlog⟩ : ∃ s log,
      (((users Bool).observed executes).guarded oneAtATime).run (⟨.init, fun _ => none⟩, [])
        [.select false "ann" "first", .exec false, .select true "ann" "second", .exec true] =
          some (s, log) ∧ log = [("ann", "first"), ("ann", "second")] := ⟨_, _, rfl, rfl⟩
  have hreach := hstart.of_guarded_run unraced_of_oneAtATime hrun
  exact ⟨s, log, hreach, hlog, (set_user_upserts hreach "ann").2⟩

/-- Two clients set a new user at the same time: both find no row, both insert one, and the user
is no longer found. -/
theorem set_user_races : ∃ s : State Bool, ∃ log,
    ((users Bool).observed executes).Reachable (s, log) ∧ (∀ client, s.pending client = none) ∧
      log = [("ann", "first"), ("ann", "second")] ∧
      (matching Row.userName s.table.rows "ann").length = 2 ∧
      s.table.getUserByName "ann" = none := by
  have hstart : ((users Bool).observed executes).Reachable (⟨.init, fun _ => none⟩, []) :=
    .start ⟨⟨rfl, fun _ => rfl⟩, rfl⟩
  obtain ⟨s, log, hrun, hpending, hlog, hrows, huser⟩ : ∃ s log,
      ((users Bool).observed executes).run (⟨.init, fun _ => none⟩, [])
        [.select false "ann" "first", .select true "ann" "second", .exec false, .exec true] =
          some (s, log) ∧ (∀ client, s.pending client = none) ∧
      log = [("ann", "first"), ("ann", "second")] ∧
      (matching Row.userName s.table.rows "ann").length = 2 ∧
      s.table.getUserByName "ann" = none :=
    ⟨_, _, rfl, by decide, rfl, by decide, by decide⟩
  exact ⟨s, log, hstart.of_run hrun, hpending, hlog, hrows, huser⟩

end Hack.MysqlQuery
