import LogConvex.Decimal.Text
import LogConvex.Solution

/- The text of a solution: a line for each of its parts, then one for each variable
   and each constraint. -/
namespace LogConvex

def Solution.text (s : Solution Float) : String :=
  let verdict := if s.converged then "converged" else "not converged"
  let lines :=
    ["status: " ++ s.status.name,
     "objective: " ++ Decimal.plain s.objective,
     "iterations: " ++ toString s.iterations ++ " (" ++ verdict ++ ")",
     "solve time: " ++ Decimal.fixed 6 s.time ++ "s"] ++
    s.values.mapIdx (fun i v => "  v" ++ toString i ++ " = " ++ Decimal.plain v) ++
    s.duals.mapIdx (fun i d => "  dual[" ++ toString i ++ "] = " ++ Decimal.plain d)
  String.join (lines.map (· ++ "\n"))

end LogConvex
