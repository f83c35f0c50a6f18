import Metaheuristics.Random.Keystream
import Metaheuristics.Random.Sampling
import Metaheuristics.Distances
import Metaheuristics.Trails
import Metaheuristics.Colony.Basic
import Metaheuristics.Annealing.Basic
import Metaheuristics.Colony.Restart
import Metaheuristics.Annealing.Restart
import Metaheuristics.Json.Reader
import Metaheuristics.Json.Printer
import Metaheuristics.Record.Tables
import Metaheuristics.Record.Colony
import Metaheuristics.Record.Annealing
import Metaheuristics.Proofs.Annealing.Cancellation
import Metaheuristics.Proofs.Annealing.Paraboloid
import Metaheuristics.Proofs.Annealing.Start
import Metaheuristics.Proofs.Annealing.Ties
import Metaheuristics.Proofs.Annealing.Window
import Metaheuristics.Proofs.Colony.Cancellation
import Metaheuristics.Proofs.Colony.Ceiling
import Metaheuristics.Proofs.Colony.Diagonal
import Metaheuristics.Proofs.Colony.Equidistant
import Metaheuristics.Proofs.Colony.Evaporation
import Metaheuristics.Proofs.Colony.Indifferent
import Metaheuristics.Proofs.Colony.Vanishing
import Metaheuristics.Proofs.Colony.Symmetry
import Metaheuristics.Proofs.Record.Runs
import Metaheuristics.Proofs.Record.Tables
import Metaheuristics.Proofs.Restart
import Metaheuristics.Proofs.UnknownCities
