import Stencil.Tuning.Kernel

namespace Stencil

structure SavedRanks where
  neighbours : List (Ref Neighbours × Neighbours) := []
  messages : List (Ref Ranks × Ranks) := []

namespace SavedRanks

def isEmpty (saved : SavedRanks) : Bool := saved.neighbours.isEmpty && saved.messages.isEmpty

def saveNeighbours (r : Ref Neighbours) (saved : SavedRanks) (s : Store) : SavedRanks × Store :=
  let t := (s.neighbours.get? r).getD .empty
  ({ saved with neighbours := saved.neighbours ++ [(r, t)] },
    t.keys.foldl (fun s field => s.setNeighbour r field nullRank) s)

def saveMessage (r : Ref Ranks) (saved : SavedRanks) (s : Store) : SavedRanks × Store :=
  match s.messages.get? r with
  | none => (saved, s)
  | some ranks =>
    ({ saved with messages := saved.messages ++ [(r, ranks)] }, s.setRanks r ⟨nullRank, nullRank⟩)

def saveParameter (args : Arguments) (p : Parameter) (saved : SavedRanks) (s : Store) :
    SavedRanks × Store :=
  match p.kind, args.get? p.name with
  | .neighbours, some (.neighbours r) => saveNeighbours r saved s
  | .messages, some (.messages rs) =>
    rs.foldl (fun (saved, s) r => saveMessage r saved s) (saved, s)
  | _, _ => (saved, s)

def switchOff (ps : List Parameter) (args : Arguments) (s : Store) : SavedRanks × Store :=
  ps.foldl (fun (saved, s) p => saveParameter args p saved s) ({}, s)

def restore (saved : SavedRanks) (s : Store) : Store :=
  let s := saved.neighbours.foldl (fun s (r, t) =>
    t.entries.foldl (fun s x => s.setNeighbour r x.1 x.2) s) s
  saved.messages.foldl (fun s (r, ranks) => s.setRanks r ranks) s

end SavedRanks

end Stencil
