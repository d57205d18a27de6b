import DroneArch.Runs
import DroneArch.Durative
import DroneArch.JournalDomain
import DroneArch.JournalFlights
import DroneArch.JournalBattery
import DroneArch.JournalGoals
import DroneArch.KnowledgeBase
import DroneArch.Replanning
import DroneArch.EvenOdd
import DroneArch.FlightCallback
import DroneArch.SimplePolygon
import DroneArch.ObstacleFitness
import DroneArch.RrtStar
import DroneArch.RrtSafety
import DroneArch.MissionPlanning
import DroneArch.Polyline
import DroneArch.SweepMission
import DroneArch.SweepBattery
import DroneArch.SweepFiles
import DroneArch.AreaInflation
import DroneArch.FlightActions
import DroneArch.GeneticSubject
import DroneArch.GeneticRun
import DroneArch.GeneticElitism
import DroneArch.AtomicDomain
import DroneArch.AtomicExecutor
import DroneArch.MissionLog
import DroneArch.GoalCount
import DroneArch.MapCentres
import DroneArch.Binary64
import DroneArch.RouteText
import DroneArch.RrtOutput
import DroneArch.Curves
import DroneArch.RrtReach
import DroneArch.JournalSupplies
import DroneArch.ParentLinks
import DroneArch.TakeOff
import DroneArch.RrtTree
import DroneArch.GeneticGenome
import DroneArch.GenomeLists
import DroneArch.GeneticCache
import DroneArch.GeneticLineage
import DroneArch.GeneticDeadline
import DroneArch.PddlDomain
import DroneArch.TextSections
import DroneArch.DomainFile
import DroneArch.DomainSections
import DroneArch.PointTest
import DroneArch.RrtBest
import DroneArch.RrtPointTest
import DroneArch.ServiceObstacles
import DroneArch.ConvexInflation
import DroneArch.ScalarInflation
import DroneArch.GeneticSpeed
import DroneArch.GeneticLength
import DroneArch.GeneticSurplus
import DroneArch.Projections
import DroneArch.SortedLists
import DroneArch.GeneticInsertion
import DroneArch.Strips
import DroneArch.SweepLines
import DroneArch.SweepCoverage
import DroneArch.PictureSquare
import DroneArch.PlanTime
import DroneArch.ConvertToWp
import DroneArch.TargetLookup
import DroneArch.Binary32
import DroneArch.Deordering
import DroneArch.EsterelPlan
import DroneArch.EsterelGraph
import DroneArch.EsterelOrder
import DroneArch.EsterelDispatch
import DroneArch.DispatchVisits
import DroneArch.DispatchRuns
import DroneArch.DispatchProgress
import DroneArch.KnowledgeItems
import DroneArch.ActionEffects
import DroneArch.PlanExecution
import DroneArch.ExecutionRuns
