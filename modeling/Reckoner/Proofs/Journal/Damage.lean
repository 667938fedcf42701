import Reckoner.Proofs.Journal.Writes
import Reckoner.Proofs.Json.Preceded
import Reckoner.Proofs.Text.Framing

/-!
Writing after damage. A record is added at the end of what the file holds, whether or not this ends
with a line end. What was left unfinished there and the record are one line, and that is read as the
record only if nothing but white space was left. Otherwise neither of the two is read.
-/
namespace Reckoner.Journal

open Text Files Data

namespace Log

section Place

variable {log : Log} {tree : Tree} {content : Utf8.Bytes} {q : List Name}

end Place

end Log

section Line

variable {e : Event} {s : List Char} {v : Value}

theorem Event.exists_written (e : Event) : ∃ r, e.written = '\x7b' :: '\x22' :: 'c' :: r := by
  rw [e.written_eq, e.stored_eq]
  exact ⟨_, rfl⟩

end Line

namespace Log

section Reading

variable {log : Log} {tree : Tree} {content : Utf8.Bytes} {e : Event}

end Reading

end Log

end Reckoner.Journal
