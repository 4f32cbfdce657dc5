import JsonProjection.Text.Utf8

/-!
A synthetic document: an array of employees, each with nested parts and a long note.
-/

namespace JsonProjection.Benchmark

def quotes (text : String) : List Char :=
  text.toList.map fun c => if c = '\'' then '"' else c

def digits (n : Nat) : List Char :=
  Nat.toDigits 10 n

def fiveDigits (n : Nat) : List Char :=
  List.replicate (5 - (digits n).length) '0' ++ digits n

def employee (i : Nat) : List Char :=
  let address :=
    quotes "'address':\x7b'street':'" ++ digits (i % 999 + 1) ++ quotes " Main St','city':'City " ++
      digits (i % 50) ++ quotes "','zip':'" ++ fiveDigits (i % 100000) ++ quotes "'\x7d"
  let tags :=
    quotes "'tags':['team-" ++ digits (i % 12) ++ quotes "','level-" ++ digits (i % 5) ++
      quotes "']"
  let milestones :=
    quotes "'milestones':[\x7b'title':'Kickoff','done':true\x7d," ++
      quotes "\x7b'title':'Launch','done':false\x7d]"
  let projects :=
    quotes "'projects':[\x7b'name':'Project " ++ digits (i % 200) ++ quotes "','budget':" ++
      digits (i * 131 % 1000000) ++ [','] ++ milestones ++ quotes "\x7d]"
  quotes "\x7b'id':" ++ digits i ++ quotes ",'name':'Employee " ++ digits i ++
    quotes "','email':'employee" ++ digits i ++ quotes "@example.com','active':" ++
    (if i % 3 = 0 then "false" else "true").toList ++ quotes ",'salary':" ++
    digits (40000 + i * 37 % 90000) ++ quotes ".5," ++ address ++ [','] ++ tags ++ [','] ++
    projects ++ quotes ",'notes':'Lorem ipsum dolor sit amet, consectetur adipiscing elit " ++
    quotes "\\'quoted\\' text'\x7d"

def employeesFrom : Nat → Bytes → Bytes
  | 0, rest => rest
  | count + 1, rest =>
    let comma : Bytes := if count = 0 then [] else [0x2C]
    employeesFrom count (comma ++ (employee count).flatMap String.utf8EncodeChar ++ rest)

def employees (count : Nat) : Bytes :=
  0x5B :: employeesFrom count [0x5D]

end JsonProjection.Benchmark
