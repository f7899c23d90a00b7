import LinuxTraining.Speedtest.CommandLine
import LinuxTraining.Speedtest.ServerList
import LinuxTraining.Speedtest.WorkerTargets

/-!
`run_proc` from the two downloads to the start of the phases. The bytes of the two answers go
through the files in `/tmp/` to the position of the client and to the list of servers.
-/
namespace LinuxTraining.Speedtest
open Execution Ranking Stdio

variable {C D : Type*}

def quoted (values : List Value) (n : Nat) : Text :=
  match values[2 * n + 1]? with
  | some (.text t) => t
  | _ => []

section Client
variable [Zero C] (atof : Text → C)

end Client

section Run
variable [Zero C] [Zero D] [LinearOrder D] (atof : Text → C) (calcDistance : C → C → C → C → D)

end Run

variable {ip lat lon isp : Text}

inductive ListLine where
  | server (value : Attribute → Text) (rest : Text)
  | other (line : Text)

namespace ListLine

def text : ListLine → Text
  | server value rest => serverLine value rest ++ ['\n']
  | other line => line ++ ['\n']

/-- A server shows all its attributes in the first 254 characters, and another line has
no piece that begins like a server. -/
def Plain : ListLine → Prop
  | server value rest => PlainLine value rest ∧ '\n' ∉ rest ∧ (∀ a, value a ≠ []) ∧
      (serverHead value).length ≤ 254
  | other line => '\n' ∉ line ∧ serverPieces (line ++ ['\n']) = []

def scanned : ListLine → Option ScannedServer
  | server value _ => some ⟨value .url, value .lat, value .lon, value .name, value .country⟩
  | other _ => none

end ListLine

theorem ListLine.Plain.lines {line : ListLine} (h : line.Plain) (rest : Text) :
    lines (line.text ++ rest) = line.text :: lines rest := by
  cases line with
  | server value more =>
      obtain ⟨hplain, hmore, -⟩ := h
      have hhead : '\n' ∉ serverHead value := serverHead_avoids (by decide) hplain.line (by decide)
      have hline : '\n' ∉ serverLine value more := by
        simpa [serverLine, hhead] using hmore
      rw [ListLine.text, List.append_assoc, List.singleton_append, lines_line hline]
  | other line =>
      rw [ListLine.text, List.append_assoc, List.singleton_append, lines_line h.1]

/-- The record of a line, whatever the targets held before. -/
theorem ListLine.Plain.records {line : ListLine} (h : line.Plain) (targets : ScannedServer) :
    records targets (serverPieces line.text) = line.scanned.toList := by
  cases line with
  | other line =>
      rw [ListLine.text, h.2]
      rfl
  | server value rest =>
      obtain ⟨hplain, -, hne, hshort⟩ := h
      have hend : PlainLine value (rest ++ ['\n']) :=
        ⟨hplain.quoted, hplain.tag, hplain.line, hplain.text, by simpa using hplain.rest⟩
      have htext : (ListLine.server value rest).text = serverLine value (rest ++ ['\n']) := by
        simp [ListLine.text, serverLine]
      have hshows := (showsAttributes_serverLine hend).mpr ⟨hne, hshort⟩
      have hpieces := serverPieces_serverLine hend
      have hown := hshows.own
      rw [hpieces] at hown
      have hscan : (scanServer (lineText (fgets 254 (serverLine value (rest ++ ['\n']))).1)
          targets).get = value := by
        refine scanServer_own (fun a v hv => ?_) fun a hnone => ?_
        · rw [hown _ (List.mem_singleton_self _) a v hv, attributeOf_serverLine hend]
        · have hsome := hshows.all a
          rw [hnone] at hsome
          cases hsome
      rw [htext, hpieces, Speedtest.records, Speedtest.records, ListLine.scanned,
        Option.toList_some, List.cons.injEq]
      refine ⟨ScannedServer.ext_get ?_, rfl⟩
      rw [hscan]
      funext a
      cases a <;> rfl

section Table
variable [Zero C] [Zero D] [LinearOrder D]

def Untouched (nearest : NearServers C D) : Prop :=
  (nearest 0).url = [] ∧ ∀ k, k ≠ 0 → nearest k = clearedServer

theorem Untouched.insert {nearest : NearServers C D} (h : Untouched nearest)
    (new : NearServer C D) : insertServer nearest new = Function.update nearest 0 new := by
  rw [insertServer, insertLoop, if_pos h.1]

end Table

section Run
variable [Zero C] [Zero D] [LinearOrder D] (atof : Text → C) (calcDistance : C → C → C → C → D)

end Run

end LinuxTraining.Speedtest
